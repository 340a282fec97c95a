import NestedPaging.Proofs.Tree.Splitting

/-!
# Offering a table

Filling a gap and splitting a leaf are one action: take a page, write the entries of a table to it,
and publish the table if the entry of the parent is still the old one, or give the page back. Both
ends are quiet (`offerTable_quiet`): a lost race leaves what the tree owns alone (`offerTable_lost`),
and a won one attaches a table that maps what the entry mapped (`offerTable_attached`).
-/

namespace NestedPaging

open PhysAddr (IsPage)

section
variable {σ ε : Type}

/-- `n` is `m` apart from what does not concern the tree: the trace and the walks under way -/
structure Tree.Alike (t : Tree) (m n : Machine σ) : Prop where
  tables : t.tables n = t.tables m
  client : n.client = m.client

namespace Tree
variable {t : Tree} {m n k : Machine σ}

theorem Alike.refl (m : Machine σ) : t.Alike m m := ⟨rfl, rfl⟩

theorem Alike.trans (h : t.Alike m n) (h' : t.Alike n k) : t.Alike m k :=
  ⟨h'.tables.trans h.tables, h'.client.trans h.client⟩

theorem alike_note (m : Machine σ) (e : Event) : t.Alike m (m.note e) := ⟨rfl, rfl⟩

theorem alike_changeState {f : TreeState → TreeState} (m : Machine σ)
    (hr : ∀ s, (f s).retired = s.retired) (hd : ∀ s, (f s).released = s.released) :
    t.Alike m (t.changeState f m) := by
  refine ⟨?_, rfl⟩
  have e : t.state (t.changeState f m) = f (t.state m) := by
    unfold state changeState
    rw [Cells.get_modify, if_pos rfl]
  unfold tables
  rw [e, hr, hd]
  rfl

theorem alike_enterWalk (m : Machine σ) : t.Alike m (t.enterWalk m) :=
  alike_changeState m (fun _ => rfl) fun _ => rfl

theorem alike_leaveWalk (m : Machine σ) : t.Alike m (t.leaveWalk m) :=
  alike_changeState m (fun _ => rfl) fun _ => rfl

theorem alike_foldl_note {α : Type} (f : α → Event) (xs : List α) (m : Machine σ) :
    t.Alike m (xs.foldl (fun m x => m.note (f x)) m) := by
  induction xs generalizing m with
  | nil => exact .refl m
  | cons x xs ih => exact (alike_note m (f x)).trans (ih _)

theorem clean_ok (t : Tree) (a : PhysAddr) (len : Nat) (env : Env σ) (m : Machine σ) :
    ∃ n, (t.clean a len : Act σ ε Unit) env m = .ok () n ∧ t.Alike m n := by
  unfold Tree.clean
  cases t.cleaner with
  | none => exact ⟨m, rfl, .refl m⟩
  | some c =>
    cases c with
    | platform => exact ⟨_, rfl, alike_note m _⟩
    | lines size => exact ⟨_, rfl, alike_foldl_note _ _ m⟩

theorem initTable_ok (t : Tree) (env : Env σ) {s : Slot} {ws : List Word} (m : Machine σ)
    (hp : IsPage s.table) (hlen : s.index + ws.length ≤ 512) :
    ∃ n, (initTable s ws : Act σ ε Unit) env m = .ok () n ∧ n.client = m.client ∧
      t.tables n = { t.tables m with memory := n.memory } ∧
      (∀ q j, IsPage q → j < 512 → ¬ (q = s.table ∧ s.index ≤ j ∧ j < s.index + ws.length) →
        n.memory.entry q j = m.memory.entry q j) ∧
      ∀ j w, ws[j]? = some w → n.memory.entry s.table (s.index + j) = w := by
  induction ws generalizing s m with
  | nil => exact ⟨m, rfl, rfl, rfl, fun _ _ _ _ _ => rfl, fun j w h => by cases h⟩
  | cons w ws ih =>
    rw [List.length_cons] at hlen
    have hi : s.index < 512 := by omega
    have hlen' : s.next.index + ws.length ≤ 512 := by
      show s.index + 1 + ws.length ≤ 512
      omega
    obtain ⟨n, hrun, hc, ht, hoff, hon⟩ := ih (s := s.next) (m.store s.address w) hp hlen'
    refine ⟨n, ?_, hc, ht, ?_, ?_⟩
    · rw [initTable, Act.bind_apply, Act.store_apply]
      exact hrun
    · intro q j hq hj hne
      rw [hoff q j hq hj fun e => hne ⟨e.1, by
        have h1 : s.index + 1 ≤ j := e.2.1
        omega, by
        have h2 : j < s.index + 1 + ws.length := e.2.2
        rw [List.length_cons]
        omega⟩]
      refine (entry_write m.memory w hp hq hi hj).trans (if_neg fun e => hne ?_)
      exact ⟨e.1.symm, by omega, by rw [List.length_cons]; omega⟩
    · intro j v hj
      cases j with
      | zero =>
        rw [List.getElem?_cons_zero] at hj
        obtain rfl := Option.some.inj hj
        rw [Nat.add_zero, hoff s.table s.index hp hi fun e => ?_]
        · exact (entry_write m.memory w hp hp hi hi).trans (if_pos ⟨rfl, rfl⟩)
        · have h1 : s.index + 1 ≤ s.index := e.2.1
          omega
      | succ j =>
        rw [List.getElem?_cons_succ] at hj
        have e : s.index + (j + 1) = s.next.index + j := by
          show s.index + (j + 1) = s.index + 1 + j
          omega
        rw [e]
        exact hon j v hj

/-- take a page, write a table to it, and let `s` point to it if `s` still holds `old` -/
def offerTable (t : Tree) (s : Slot) (old : Word) (entries : Bool → List Word) :
    Act σ TableError Unit := do
  let page ← Act.allocOr .insufficientMemory 0
  let split ← Act.view (·.splitExecute)
  initTable ⟨page, 0, s.level - 1⟩ (entries split)
  t.clean page 4096
  t.publishTable s old page

theorem splitLeaf_eq (t : Tree) (s : Slot) (raw : Word) :
    (t.splitLeaf s raw : Act σ TableError Unit)
      = t.offerTable s raw fun split => t.format.splitEntries split s.level raw := rfl

theorem fillGap_eq (t : Tree) (s : Slot) :
    (t.fillGap s : Act σ TableError Unit) = t.offerTable s 0 fun _ => [] := rfl

theorem offerTable_none {env : Env σ} {s : Slot} {old : Word} {entries : Bool → List Word}
    (h : env.supply m = (n, none)) :
    t.offerTable s old entries env m = .error (.failed .insufficientMemory) (n.note .exhausted) := by
  simp only [offerTable, Act.bind_apply, Act.allocOr, Act.allocPage, h, Act.fail_apply]

/-- a page goes back if somebody was faster -/
theorem publishTable_lost (t : Tree) {s : Slot} {old : Word} (q : PhysAddr) (env : Env σ)
    (h : m.memory.read s.address ≠ old) :
    (t.publishTable s old q : Act σ ε Unit) env m = .ok () (m.giveBack q) := by
  simp only [publishTable, Act.bind_apply, Act.publish_apply, h, if_false]
  rfl

theorem publishTable_ok (t : Tree) (s : Slot) (old : Word) (q : PhysAddr) (env : Env σ)
    (m : Machine σ) : ∃ n, (t.publishTable s old q : Act σ ε Unit) env m = .ok () n ∧
      t.Alike (if m.memory.read s.address = old then m.store s.address (t.format.tableWord q)
        else m.giveBack q) n := by
  by_cases h : m.memory.read s.address = old
  · simp only [publishTable, Act.bind_apply, Act.publish_apply, h, if_true]
    exact clean_ok t s.address 8 env _
  · rw [if_neg h]
    exact ⟨_, t.publishTable_lost q env h, .refl _⟩

theorem Owns.ne_of_free {others : Nat → Prop} {own : Layout} {p q : PhysAddr} {r : Region}
    (h : t.Owns others own (t.tables m)) (hp : own p = some r) (hq : m.isLive q = false) :
    p ≠ q := by
  rintro rfl
  have hin : (t.tables m).inUse p.frame := h.inUse_page hp
  have hc : m.isLive p = true := hin
  rw [hq] at hc
  exact absurd hc Bool.false_ne_true

/-- a page was taken and filled with a table, and nobody else sees it yet -/
structure Prepared (own : Layout) (q : PhysAddr) (ws : List Word) (T T' : Tables) : Prop where
  entry : ∀ {p r i}, own p = some r → i < 512 → T'.memory.entry p i = T.memory.entry p i
  off : ∀ {p i}, IsPage p → i < 512 → p ≠ q → T'.memory.entry p i = T.memory.entry p i
  fresh : ∀ i, i < 512 → T'.memory.entry q i = ws[i]?.getD 0
  inUse : ∀ i, T'.inUse i ↔ T.inUse i ∨ i = q.frame
  split : T'.split = T.split
  retired : T'.retired = T.retired
  released : T'.released = T.released

section
variable {others : Nat → Prop} {own : Layout} {p q : PhysAddr} {s : Slot} {i k x : Nat}
  {old : Word} {ws : List Word} {T T' : Tables}

theorem prepare (h : t.Owns others own (t.tables m)) (hq : IsPage q) (hf : m.isLive q = false)
    (hlen : ws.length ≤ 512) (level : Nat) (env : Env σ) :
    ∃ n, (do initTable ⟨q, 0, level⟩ ws; t.clean q 4096 : Act σ ε Unit) env (m.take q 0) = .ok () n ∧
      n.client = m.client ∧ Prepared own q ws (t.tables m) (t.tables n) := by
  obtain ⟨n, hrun, hc, ht, hoff, hon⟩ := initTable_ok (ε := ε) t env (s := ⟨q, 0, level⟩)
    (m.take q 0) hq (by rw [Nat.zero_add]; exact hlen)
  obtain ⟨n', hrun', hal⟩ := clean_ok (ε := ε) t q 4096 env n
  refine ⟨n', ?_, hal.client.trans hc, ?_⟩
  · rw [Act.bind_apply, hrun]
    exact hrun'
  · rw [hal.tables]
    have hsame : ∀ {p i}, IsPage p → i < 512 → p ≠ q →
        n.memory.entry p i = m.memory.entry p i := by
      intro p i hp hi hne
      refine (hoff p i hp hi fun e => hne e.1).trans ?_
      exact (entry_fill m.memory 0 hq hp hi).trans (if_neg fun e => hne e.symm)
    constructor
    · exact fun hp hi => hsame (h.isPage hp) hi (h.ne_of_free hp hf)
    · exact hsame
    · intro i hi
      cases hw : ws[i]? with
      | some w =>
        have e := hon i w hw
        rw [Nat.zero_add] at e
        exact e
      | none =>
        have hge := List.getElem?_eq_none_iff.mp hw
        have e := hoff q i hq hi fun e => by
          have h2 : i < 0 + ws.length := e.2.2
          omega
        exact e.trans ((entry_fill m.memory 0 hq hq hi).trans (if_pos rfl))
    · intro i
      have e : (t.tables n).inUse i ↔ i ∈ m.live.insert q.frame := by rw [ht]; rfl
      rw [e, Std.HashSet.mem_insert, beq_iff_eq, or_comm, eq_comm (a := q.frame)]
      exact Iff.rfl
    · exact (congrArg Tables.split ht).trans rfl
    · exact (congrArg Tables.retired ht).trans rfl
    · exact (congrArg Tables.released ht).trans rfl

/-- a page that lost its race goes back -/
theorem Prepared.lost (hf : m.isLive q = false)
    (hp : Prepared own q ws (t.tables m) (t.tables n)) :
    own.Same (t.tables m) (t.tables (n.giveBack q)) where
  entry := hp.entry
  inUse i := by
    have hm : i = q.frame → ¬ (t.tables m).inUse i := by
      rintro rfl hin
      have hc : m.isLive q = true := hin
      rw [hf] at hc
      exact absurd hc Bool.false_ne_true
    have e : (t.tables (n.giveBack q)).inUse i ↔ i ∈ n.live.erase q.frame := Iff.rfl
    have e' : i ∈ n.live ↔ (t.tables m).inUse i ∨ i = q.frame := hp.inUse i
    rw [e, Std.HashSet.mem_erase, e', beq_eq_false_iff_ne]
    constructor
    · intro h'
      obtain ⟨hne, hin | rfl⟩ := h'
      · exact hin
      · exact absurd rfl hne
    · exact fun hin => ⟨fun e => hm e.symm hin, .inl hin⟩
  split := hp.split
  retired := hp.retired
  released := hp.released

/-- a page that won its race is a table of the tree -/
theorem Prepared.won (h : t.Owns others own (t.tables m)) (hq : IsPage q)
    (hf : m.isLive q = false) (hp : own s.table = some ⟨k + 1, x⟩) (hi : s.index < 512)
    (hold : t.format.isTable (m.memory.entry s.table s.index) (k + 1) = false)
    (hl : MapsLike t.format m.splitExecute k (x * 512 + s.index)
      (m.memory.entry s.table s.index) ws)
    (hn : Prepared own q ws (t.tables m) (t.tables n)) :
    Owns.Attached t own s.table q k x s.index (t.tables m)
      (t.tables (n.store s.address (t.format.tableWord q))) := by
  have hpage := h.isPage hp
  have hne := h.ne_of_free hp hf
  have hread : ∀ {p j}, IsPage p → j < 512 →
      (n.store s.address (t.format.tableWord q)).memory.entry p j
        = if s.table = p ∧ s.index = j then t.format.tableWord q else n.memory.entry p j :=
    fun hp' hj => entry_write n.memory _ hpage hp' hi hj
  have hfresh : ∀ j, j < 512 →
      (n.store s.address (t.format.tableWord q)).memory.entry q j = ws[j]?.getD 0 := by
    intro j hj
    rw [hread hq hj, if_neg fun e => hne e.1]
    exact hn.fresh j hj
  exact {
    place := hp
    index := hi
    old := hold
    page := hq
    free := fun hin => absurd (show m.isLive q = true from hin) (by rw [hf]; exact Bool.false_ne_true)
    off := fun p r j hp' hj hs => by
      refine (hread (h.isPage hp') hj).trans ?_
      rw [if_neg fun e => hs ⟨e.1.symm, e.2.symm⟩]
      exact hn.entry hp' hj
    here := (hread hpage hi).trans (if_pos ⟨rfl, rfl⟩)
    fresh := fun j hj => by
      rw [show (t.tables (n.store s.address (t.format.tableWord q))).memory.entry q j
        = _ from hfresh j hj]
      exact hl.bare j hj
    inUse := hn.inUse
    split := hn.split
    retired := hn.retired
    released := hn.released
    maps := fun a ha => by
      rw [show (t.tables (n.store s.address (t.format.tableWord q))).memory.entry q
        (tableIndex a k) = _ from hfresh _ (tableIndex_lt a k)]
      exact hl.maps a ha }

/-- others do not notice an offer -/
theorem Prepared.spares (h : t.Owns others own (t.tables m)) (hq : IsPage q)
    (hf : m.isLive q = false) (hp : own s.table = some r) (hi : s.index < 512) {w : Word}
    (hn : Prepared own q ws (t.tables m) (t.tables n)) {c : Prop} [Decidable c] :
    (t.tables m).Spares others
      (t.tables (if c then n.store s.address w else n.giveBack q)) := by
  intro p j hpage hj ho
  have hne : p ≠ q := by
    rintro rfl
    have hin : m.isLive p = true := (h.inUse _).mpr (.inl ho)
    rw [hf] at hin
    exact absurd hin Bool.false_ne_true
  split
  · refine (entry_write n.memory w (h.isPage hp) hpage hi hj).trans ((if_neg ?_).trans ?_)
    · rintro ⟨rfl, _⟩
      exact h.apart hp ho
    · exact hn.off hpage hj hne
  · exact hn.off hpage hj hne

/-- with a page at hand an offer fills it and publishes it -/
theorem offerTable_prepared {env : Env σ} (entries : Bool → List Word) (s : Slot) (old : Word)
    (hs : env.supply m = (n, some q)) (h : t.Owns others own (t.tables n)) (hq : IsPage q)
    (hf : n.isLive q = false) (hlen : (entries n.splitExecute).length ≤ 512) :
    ∃ k, t.offerTable s old entries env m = (t.publishTable s old q : Act σ TableError Unit) env k ∧
      k.client = n.client ∧ Prepared own q (entries n.splitExecute) (t.tables n) (t.tables k) := by
  obtain ⟨k, hrun, hc, hprep⟩ := prepare h hq hf hlen (s.level - 1) env
  refine ⟨k, ?_, hc, hprep⟩
  rw [Act.bind_apply] at hrun
  cases hinit : (initTable ⟨q, 0, s.level - 1⟩ (entries n.splitExecute) : Act σ TableError Unit)
      env (n.take q 0) with
  | error e k =>
    rw [hinit] at hrun
    cases hrun
  | ok u k =>
    rw [hinit] at hrun
    have hsplit : (n.take q 0).splitExecute = n.splitExecute := rfl
    simp only [offerTable, Act.bind_apply, Act.allocOr, Act.allocPage, hs, Act.pure_apply,
      Act.view_apply, hsplit, hinit, hrun]

/-- an offer ends well, and the page is published if nobody was faster -/
theorem offerTable_ok {env : Env σ} (entries : Bool → List Word) (old : Word)
    (hs : env.supply m = (n, some q)) (h : t.Owns others own (t.tables n)) (hq : IsPage q)
    (hf : n.isLive q = false) (hp : own s.table = some r) (hi : s.index < 512)
    (hlen : (entries n.splitExecute).length ≤ 512) :
    ∃ k₁ k₂, t.offerTable s old entries env m = .ok () k₂ ∧ k₁.client = n.client ∧
      Prepared own q (entries n.splitExecute) (t.tables n) (t.tables k₁) ∧
      t.Alike (if n.memory.entry s.table s.index = old then
        k₁.store s.address (t.format.tableWord q) else k₁.giveBack q) k₂ := by
  obtain ⟨k₁, hrun, hc, hprep⟩ := offerTable_prepared entries s old hs h hq hf hlen
  obtain ⟨k₂, hrun', hal⟩ := publishTable_ok (ε := TableError) t s old q env k₁
  have hread : k₁.memory.read s.address = n.memory.entry s.table s.index := hprep.entry hp hi
  rw [hread] at hal
  exact ⟨k₁, k₂, hrun.trans hrun', hc, hprep, hal⟩

/-- an offer that somebody was faster than gives its page back and changes nothing -/
theorem offerTable_lost {env : Env σ} (entries : Bool → List Word)
    (hs : env.supply m = (n, some q)) (h : t.Owns others own (t.tables n)) (hq : IsPage q)
    (hf : n.isLive q = false) (hp : own s.table = some r) (hi : s.index < 512)
    (hlen : (entries n.splitExecute).length ≤ 512) (hlost : n.memory.entry s.table s.index ≠ old) :
    ∃ k : Machine σ, t.offerTable s old entries env m = .ok () (k.giveBack q) ∧ k.client = n.client ∧
      own.Same (t.tables n) (t.tables (k.giveBack q)) := by
  obtain ⟨k, hrun, hc, hprep⟩ := offerTable_prepared entries s old hs h hq hf hlen
  have hread : k.memory.read s.address = n.memory.entry s.table s.index := hprep.entry hp hi
  refine ⟨k, hrun.trans (t.publishTable_lost q env ?_), hc, hprep.lost hf⟩
  rw [hread]
  exact hlost

section
variable {env : Env σ} (entries : Bool → List Word)
  (hs : env.supply m = (n, some q)) (h : t.Owns others own (t.tables n)) (hq : IsPage q)
  (hf : n.isLive q = false) (hp : own s.table = some ⟨k + 1, x⟩) (hi : s.index < 512)
  (hold : t.format.isTable old (k + 1) = false)
  (hl : MapsLike t.format n.splitExecute k (x * 512 + s.index) old (entries n.splitExecute))
  (hlen : (entries n.splitExecute).length ≤ 512)
include hs h hq hf hp hi hold hl hlen

/-- an offer that nobody was faster than attaches the page -/
theorem offerTable_attached (hwin : n.memory.entry s.table s.index = old) :
    ∃ n', t.offerTable s old entries env m = .ok () n' ∧ n'.client = n.client ∧
      Owns.Attached t own s.table q k x s.index (t.tables n) (t.tables n') := by
  obtain ⟨k₁, k₂, hrun, hc, hprep, hal⟩ := offerTable_ok entries old hs h hq hf hp hi hlen
  rw [if_pos hwin] at hal
  refine ⟨k₂, hrun, hal.client.trans hc, ?_⟩
  rw [hal.tables]
  exact Prepared.won h hq hf hp hi (by rw [hwin]; exact hold) (by rw [hwin]; exact hl) hprep

/-- an offer is quiet, and if nobody was faster the entry points to a table after it -/
theorem offerTable_quiet :
    ∃ n' own', t.offerTable s old entries env m = .ok () n' ∧ n'.client = n.client ∧
      t.Quiet others own own' (t.tables n) (t.tables n') ∧
      (t.tables n).Spares others (t.tables n') ∧
      (n.memory.entry s.table s.index = old →
        t.format.isTable (n'.memory.entry s.table s.index) (k + 1) = true) := by
  obtain ⟨k₁, k₂, hrun, hc, hprep, hal⟩ := offerTable_ok entries old hs h hq hf hp hi hlen
  have hspares : (t.tables n).Spares others (t.tables k₂) := by
    rw [hal.tables]
    exact hprep.spares h hq hf hp hi
  by_cases hwin : n.memory.entry s.table s.index = old
  · rw [if_pos hwin] at hal
    have hat := Prepared.won h hq hf hp hi (by rw [hwin]; exact hold) (by rw [hwin]; exact hl) hprep
    refine ⟨k₂, own.add q ⟨k, x * 512 + s.index⟩, hrun, hal.client.trans hc, ?_, hspares,
      fun _ => ?_⟩
    · rw [hal.tables]
      exact h.publish hat
    · have e : k₂.memory = (k₁.store s.address (t.format.tableWord q)).memory :=
        congrArg Tables.memory hal.tables
      rw [e, show (k₁.store s.address (t.format.tableWord q)).memory.entry s.table s.index
        = t.format.tableWord q from hat.here]
      exact t.format.isTable_tableWord hq k
  · rw [if_neg hwin] at hal
    refine ⟨k₂, own, hrun, hal.client.trans hc, ?_, hspares, fun e => absurd e hwin⟩
    rw [hal.tables]
    exact h.quiet_of_same (hprep.lost hf)

end

end

end Tree

end

end NestedPaging
