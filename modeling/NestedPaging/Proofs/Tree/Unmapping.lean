import NestedPaging.Proofs.Tree.Frame
import NestedPaging.Proofs.Tree.LargestLeaves

/-!
# What unmapping needs memory for

A walk that unmaps stops at an absent entry, and splits a leaf that is larger than its entries. So it asks
for a page only when it splits, and then once for each level between the leaf and the entries.

* `Machine.Drew m d n`    `d` pages were asked for, and all were handed out;
* `Tree.SplitTo`          the leaf of an address is split down to some level;
* `Alone.descend_splits`  that is what a walk does to a leaf, or some of it, for lack of memory;
* `update_without_pages`  where nothing is to be split an update asks for no page;
* `Alone.update_splits`   and elsewhere for as many as there are levels to split;
* `Alone.update_path`     it never puts a table under an absent entry.
-/

namespace NestedPaging

open PhysAddr (IsPage)

variable {σ ε : Type}

/-- how often a page was asked for -/
def requests (es : List Event) : Nat :=
  es.countP fun
    | .allocated .. | .exhausted => true
    | _ => false

namespace Machine

/-- from `m` to `n` a page was asked for `d` times -/
def Asked (m : Machine σ) (d : Nat) (n : Machine σ) : Prop := ∃ es, m.Logs es n ∧ requests es = d

/-- from `m` to `n` a page was asked for `d` times, and one was handed out each time -/
def Drew (m : Machine σ) (d : Nat) (n : Machine σ) : Prop :=
  ∃ es, m.Logs es n ∧ requests es = d ∧ .exhausted ∉ es

variable {m k n : Machine σ} {d e : Nat}

theorem Asked.trans (h : m.Asked d k) (h' : k.Asked e n) : m.Asked (d + e) n := by
  obtain ⟨es, hl, hd⟩ := h
  obtain ⟨fs, hl', he⟩ := h'
  refine ⟨es ++ fs, hl.trans hl', ?_⟩
  rw [requests, List.countP_append]
  exact congrArg₂ (· + ·) hd he

namespace Drew

theorem trans (h : m.Drew d k) (h' : k.Drew e n) : m.Drew (d + e) n := by
  obtain ⟨es, hl, hd, hx⟩ := h
  obtain ⟨fs, hl', he, hx'⟩ := h'
  refine ⟨es ++ fs, hl.trans hl', ?_, fun hm => (List.mem_append.mp hm).elim hx hx'⟩
  rw [requests, List.countP_append]
  exact congrArg₂ (· + ·) hd he

theorem asked (h : m.Drew d n) : m.Asked d n := by
  obtain ⟨es, hl, hd, _⟩ := h
  exact ⟨es, hl, hd⟩

theorem of_same (h : n.trace = m.trace) : m.Drew 0 n := ⟨[], .refl h, rfl, nofun⟩

theorem store (m : Machine σ) (a : PhysAddr) (w : Word) : m.Drew 0 (m.store a w) :=
  ⟨_, .push rfl, rfl, nofun⟩

theorem giveBack (m : Machine σ) (p : PhysAddr) : m.Drew 0 (m.giveBack p) := ⟨_, .push rfl, rfl, nofun⟩

theorem note (m : Machine σ) (e : Event) (h : requests [e] = 0) : m.Drew 0 (m.note e) := by
  refine ⟨_, .note m e, h, fun hm => ?_⟩
  rw [← List.mem_singleton.mp hm] at h
  cases h

theorem take (m : Machine σ) (p : PhysAddr) (w : Word) : m.Drew 1 (m.take p w) := ⟨_, .push rfl, rfl, nofun⟩

end Drew

end Machine

namespace Act

/-- `x` asks for no page -/
abbrev Frugal {α : Type} (env : Env σ) (x : Act σ ε α) : Prop := x.Keeps (fun m n => m.Drew 0 n) env

namespace Frugal
variable {α β : Type} {env : Env σ}

theorem bind {x : Act σ ε α} {f : α → Act σ ε β} (hx : x.Frugal env) (hf : ∀ a, (f a).Frugal env) :
    (x >>= f).Frugal env := Keeps.bind (fun _ _ _ => Machine.Drew.trans) hx hf

theorem pure (a : α) : (Pure.pure a : Act σ ε α).Frugal env := fun _ => .of_same rfl

theorem view (f : Machine σ → α) : (Act.view f : Act σ ε α).Frugal env := fun _ => .of_same rfl

theorem store (a : PhysAddr) (w : Word) : (Act.store a w : Act σ ε Unit).Frugal env := fun m => .store m a w

theorem clean (c : Cleaner) (a : PhysAddr) (len : Nat) : (Act.clean c a len : Act σ ε Unit).Frugal env := by
  intro m
  cases c with
  | platform => exact .note m _ rfl
  | lines size =>
    show m.Drew 0 ((visitedLines size a len).foldl (fun m line => m.note (.lineCleaned line size)) m)
    generalize visitedLines size a len = lines
    induction lines generalizing m with
    | nil => exact .of_same rfl
    | cons line lines ih => exact (Machine.Drew.note m (.lineCleaned line size) rfl).trans (ih _)

end Frugal

end Act

namespace Tree
variable {t : Tree} {others : Nat → Prop} {env : Env σ} {own own' own'' : Layout} {T T' T'' : Tables}
  {m k n : Machine σ} {a b : GuestAddr} {p q : PhysAddr} {d e l level target : Nat}

/-! ## who asks for pages -/

theorem frugal_clean (a : PhysAddr) (len : Nat) : (t.clean a len : Act σ ε Unit).Frugal env := by
  unfold Tree.clean
  cases t.cleaner with
  | none => exact .pure ()
  | some c => exact .clean c a len

theorem frugal_initTable (s : Slot) (ws : List Word) : (initTable s ws : Act σ ε Unit).Frugal env := by
  induction ws generalizing s with
  | nil => exact .pure ()
  | cons w ws ih => exact .bind (.store s.address w) fun _ => ih s.next

theorem frugal_publishTable (s : Slot) (old : Word) (page : PhysAddr) :
    (t.publishTable s old page : Act σ ε Unit).Frugal env := by
  refine .bind (fun m => ?_) fun found => ?_
  · rw [Act.after_of_ok (Act.publish_apply env m s.address old _)]
    split
    · exact .store m ..
    · exact .of_same rfl
  · split
    · exact frugal_clean s.address 8
    · exact fun m => .giveBack m page

theorem frugal_overwrite (s : Slot) (ws : List Word) : (t.overwrite s ws : Act σ ε Unit).Frugal env := by
  induction ws generalizing s with
  | nil => exact .pure ()
  | cons w ws ih =>
    refine .bind (fun m => .store m s.address w) fun old => ?_
    split
    · refine .bind (fun m => ?_) fun _ => ih s.next
      exact (Machine.Drew.note m _ rfl).trans (.of_same rfl)
    · exact ih s.next

theorem frugal_writeRun (p : Mapping) (order : Nat) (s : Option Slot) : (t.writeRun p order s).Frugal env := by
  cases s with
  | none => exact .pure _
  | some s =>
    exact .bind (.view _) fun _ => .bind (frugal_overwrite s _) fun _ => .bind (frugal_clean _ _) fun _ => .pure _

/-- an offer asks for one page -/
theorem offerTable_drew {s : Slot} {old : Word} {entries : Bool → List Word} (hs : env.supply m = (k, some q))
    (hk : k.trace = m.trace) (h : t.offerTable s old entries env m = .ok () n) : m.Drew 1 n := by
  have hrest : ∀ page, (do
      let split ← Act.view (·.splitExecute)
      initTable ⟨page, 0, s.level - 1⟩ (entries split)
      t.clean page 4096
      t.publishTable s old page : Act σ TableError Unit).Frugal env := fun page =>
    .bind (.view _) fun _ => .bind (frugal_initTable _ _) fun _ =>
      .bind (frugal_clean page 4096) fun _ => frugal_publishTable s old page
  have hpage : (Act.allocOr .insufficientMemory 0 : Act σ TableError PhysAddr) env m = .ok q (k.take q 0) := by
    simp only [Act.allocOr, Act.bind_apply, Act.allocPage, hs, Act.pure_apply]
  have hafter := hrest q (k.take q 0)
  unfold offerTable at h
  rw [Act.bind_apply, hpage] at h
  rw [Act.after_of_ok h] at hafter
  exact ((Machine.Drew.of_same hk).trans (.take k q 0)).trans hafter

/-- after its walk an update asks for no page -/
theorem update_of_reach_drew {p : Mapping} {order : Nat} {s : Option Slot} (hr : t.format.refusal? p order = none)
    (hs : t.reach p.gpa (p.leafLevel order t.format.topLeafLevel)
      (if p.maps then .grow else .stop) env (t.enterWalk m) = .ok s k) :
    ∃ n, t.update p order env m = .ok (p.coveredOrder t.format order) n ∧ k.Drew 0 n := by
  obtain ⟨n, hn⟩ := t.writeRun_ok p order s env k
  have hafter : k.Drew 0 ((t.writeRun p order s).after env k) := frugal_writeRun p order s k
  rw [Act.after_of_ok hn] at hafter
  exact ⟨t.leaveWalk n, update_of_apply hr ((apply_of_reach hs).trans hn), hafter.trans (.of_same rfl)⟩

/-! ## leaves that are split -/

section
variable {i x : Nat} (h : t.Owns others own T) (hat : Owns.Attached t own p q l x (tableIndex a (l + 1)) T T')
  (ha : t.format.inRange a = true) (hon : ⟨p, l + 1⟩ ∈ t.path T.memory a)
include h hat ha hon

/-- a table that is attached on the way of an address is on its way -/
theorem Owns.mem_path_attached : ⟨q, l⟩ ∈ t.path T'.memory a := by
  have htable : t.format.isTable (T'.memory.entry p (tableIndex a (l + 1))) (l + 1) = true := by
    rw [hat.here]
    exact t.format.isTable_tableWord hat.page l
  have hchild := t.child_mem_path ((h.publish hat).path ha hon) htable
  rw [hat.here, t.format.entryAddress_tableWord hat.page] at hchild
  exact hchild

/-- and has a leaf there, if it took the place of one -/
theorem Owns.isPresent_attached (hpres : t.format.isPresent (T.memory.entry p (tableIndex a (l + 1))) = true) :
    t.format.isPresent (T'.memory.entry q (tableIndex a l)) = true := by
  have hmaps := hat.maps a (h.block_on hat.place ha hon rfl)
  unfold Format.leafOf at hmaps
  rw [if_pos hpres] at hmaps
  split at hmaps
  · assumption
  · cases hmaps

end

/-- the leaf of `a` at one level is split down to another -/
inductive SplitTo (t : Tree) (a : GuestAddr) : Nat → Nat → Layout → Tables → Layout → Tables → Prop
  | refl (l : Nat) (own : Layout) (T : Tables) : SplitTo t a l l own T own T
  | attach {k l : Nat} {own own' : Layout} {T T' T'' : Tables} {p q : PhysAddr} :
    ⟨p, k + 1⟩ ∈ t.path T.memory a →
    t.format.isPresent (T.memory.entry p (tableIndex a (k + 1))) = true →
    Owns.Attached t own p q k (a.block (k + 2)) (tableIndex a (k + 1)) T T' →
    SplitTo t a k l (own.add q ⟨k, a.block (k + 2) * 512 + tableIndex a (k + 1)⟩) T' own' T'' →
    SplitTo t a (k + 1) l own T own' T''

namespace SplitTo

theorem le (h : t.SplitTo a level l own T own' T') : l ≤ level := by
  induction h with
  | refl => exact Nat.le_refl _
  | attach _ _ _ _ ih => exact Nat.le_succ_of_le ih

/-- one table for each level -/
theorem grown (h : t.SplitTo a level l own T own' T') : t.Grown a (level - l) own T own' T' := by
  induction h with
  | refl l own T => exact .refl _ own T
  | attach hon _ hat hrest ih =>
    rw [Nat.succ_sub hrest.le]
    exact .attach hon hat ih

/-- an address without a leaf keeps its path -/
theorem path_of_none (h : t.SplitTo a level l own T own' T') (ho : t.Owns others own T)
    (hb : t.format.inRange b = true) (hnone : t.leaf? T.memory b = none) :
    t.path T'.memory b = t.path T.memory b := by
  induction h with
  | refl => rfl
  | @attach k l own own' T T' T'' p q hon hpres hat hrest ih =>
    have hoff : ¬ (⟨p, k + 1⟩ ∈ t.path T.memory b ∧ tableIndex b (k + 1) = tableIndex a (k + 1)) := by
      rintro ⟨honb, hi⟩
      rw [t.leaf?_of_mem hb honb, t.format.leafBelow_of_not_table (by rw [hi]; exact hat.old), hi] at hnone
      unfold Format.leafOf at hnone
      rw [if_pos hpres] at hnone
      cases hnone
    obtain ⟨hpath, hleaf⟩ := ho.path_off hat.place hat.off hb hoff
    rw [ih (Owns.owns_attached ho hat) (hleaf.trans hnone), hpath]

/-- its tables are on the way of the address -/
theorem exists_table (h : t.SplitTo a level l own T own' T') (ho : t.Owns others own T)
    (ha : t.format.inRange a = true) {j : Nat} (hl : l ≤ j) (hj : j < level) : ∃ q, ⟨q, j⟩ ∈ t.path T'.memory a := by
  induction h with
  | refl => exact absurd hj (Nat.not_lt.mpr hl)
  | @attach k l own own' T T' T'' p q hon hpres hat hrest ih =>
    have ho' := Owns.owns_attached ho hat
    rcases Nat.lt_or_eq_of_le (Nat.le_of_lt_succ hj) with hlt | rfl
    · exact ih ho' hl hlt
    · exact ⟨q, (hrest.grown.quiet ho').path ha (ho.mem_path_attached hat ha hon)⟩

end SplitTo

theorem Calm.of_alone (ha : env.Alone) : t.Calm env := by
  intro m
  obtain ⟨client, hm⟩ := ha m
  rw [hm]
  rfl

/-- after some of the splits no page was offered for the next one -/
def SplitShort (t : Tree) (env : Env σ) (a : GuestAddr) (level l : Nat) (own₀ : Layout) (m : Machine σ) (own : Layout)
    (n : Machine σ) : Prop :=
  ∃ e j k, level = j + e ∧ l < j ∧ t.SplitTo a level j own₀ (t.tables m) own (t.tables n) ∧ m.Asked (e + 1) n ∧
    m.Adds e k ∧ (env.supply k).2 = none

/-- beginning and ending a walk makes no difference -/
theorem SplitShort.of_walk (h : t.SplitShort env a level l own (t.enterWalk m) own' n) :
    t.SplitShort env a level l own m own' (t.leaveWalk n) := by
  obtain ⟨e, j, k, hlevel, hlt, hsplit, ⟨es, hl, hd⟩, hadds, hs⟩ := h
  rw [(alike_enterWalk m).tables, ← (alike_leaveWalk n).tables] at hsplit
  exact ⟨e, j, k, hlevel, hlt, hsplit, ⟨es, hl, hd⟩, hadds, hs⟩

/-- a leaf in the table `p` is split down to the level of the entries -/
theorem Alone.descend_splits (hh : env.Honest) (ha : env.Alone) (h : t.Owns others own (t.tables m))
    (hin : t.format.inRange a = true) (hon : ⟨p, target + d⟩ ∈ t.path m.memory a)
    (ht : t.format.isTable (m.memory.entry p (tableIndex a (target + d))) (target + d) = false)
    (hpres : t.format.isPresent (m.memory.entry p (tableIndex a (target + d))) = true) :
    Yields env (t.SplitShort env a (target + d) target own m) own
      (Rely.FoundSlot t (fun own' n => t.SplitTo a (target + d) target own (t.tables m) own' (t.tables n) ∧ m.Drew d n)
        (fun _ _ => False) a .stop target)
      (t.descend a target .stop d p env m) := by
  induction d generalizing own m p with
  | zero => exact ⟨own, .refl own, ⟨.refl _ own _, .of_same rfl⟩, p, rfl, h.own_of_mem_path hin hon, .inl hon⟩
  | succ d ih =>
    have hplace : own p = some ⟨target + d + 1, a.block (target + d + 2)⟩ := h.own_of_mem_path hin hon
    have hgap : AtGap.stop = .stop → m.memory.entry p (tableIndex a (target + d + 1)) ≠ 0 := fun _ =>
      t.format.ne_zero_of_isPresent hpres
    obtain ⟨k, offer, hs⟩ : ∃ k offer, env.supply m = (k, offer) := ⟨_, _, rfl⟩
    obtain ⟨client, hk⟩ := ha m
    rw [hs] at hk
    change k = _ at hk
    unfold descend
    rw [Act.bind_apply]
    cases offer with
    | none =>
      rw [child_starved (r := p) (l := target + d) hplace rfl ht h hgap hs, hk]
      refine ⟨rfl, own, .refl own, 0, _, m, rfl, Nat.lt_add_of_pos_right d.succ_pos, .refl _ own _, ?_, .refl 0 m,
        by rw [hs]⟩
      exact ⟨_, .push rfl, rfl⟩
    | some q =>
      obtain ⟨n, hn, hat, entries, hoffer⟩ :=
        Calm.child_attached (r := p) (l := target + d) hplace rfl ht hh (Calm.of_alone (t := t) ha) h hgap hs
      have hdrew : m.Drew 1 n := offerTable_drew hs (by rw [hk]) hoffer
      have ho' := Owns.owns_attached h hat
      rw [hn]
      refine ((ih ho' (h.mem_path_attached hat hin hon) (hat.fresh _ (tableIndex_lt a _)).not_table
        (h.isPresent_attached hat hin hon hpres)).weaken (h.publish hat).grows).mono ?_ ?_
      · rintro own' n' ⟨e, j, k', hj, hlt, hsplit, hasked, hadds, hnone⟩
        refine ⟨e + 1, j, k', by omega, hlt, .attach hon hpres hat hsplit, ?_, ?_, hnone⟩
        · rw [Nat.add_comm]
          exact hdrew.asked.trans hasked
        · rw [Nat.add_comm]
          exact (Grown.attach hon hat (.refl 0 _ _)).adds.trans hadds
      · rintro v own' n' ⟨⟨hsplit, hmore⟩, hv⟩
        refine ⟨⟨.attach hon hpres hat hsplit, ?_⟩, hv⟩
        rw [Nat.add_comm d 1]
        exact hdrew.trans hmore

/-! ## updates that unmap -/

theorem LeafAt.unique {memory : Memory} (h : t.LeafAt memory a level) (h' : t.LeafAt memory a l)
    (hl : level ≤ t.format.topLeafLevel) (hl' : l ≤ t.format.topLeafLevel) : level = l := by
  obtain ⟨x, hx, hx'⟩ := h
  obtain ⟨y, hy, hy'⟩ := h'
  obtain rfl := Option.some.inj (hx.symm.trans hy)
  have h4 := t.format.topLeafLevel_le
  exact levelOrder_inj (Nat.le_trans hl h4) (Nat.le_trans hl' h4) (hx'.symm.trans hy')

/-- the way of an address ends at an absent entry or at its leaf -/
theorem Owns.way_ends (h : t.Owns others own T) (ha : t.format.inRange a = true) :
    ∃ r ∈ t.path T.memory a, t.format.isTable (T.memory.entry r.table (tableIndex a r.level)) r.level = false ∧
      (T.memory.entry r.table (tableIndex a r.level) = 0 ∨
        t.format.isPresent (T.memory.entry r.table (tableIndex a r.level)) = true ∧
        r.level ≤ t.format.topLeafLevel ∧ t.LeafAt T.memory a r.level) := by
  obtain ⟨r, hr, hend⟩ := t.format.exists_end T.memory a t.format.rootLevel t.root
  have hbare := (h.entry (h.own_of_mem_path ha hr) (tableIndex_lt a _)).bare_of_not_table h.isPage hend
  refine ⟨r, hr, hend, ?_⟩
  by_cases hpres : t.format.isPresent (T.memory.entry r.table (tableIndex a r.level)) = true
  · obtain ⟨_, _, htop, _⟩ := hbare.eq_leaf hpres
    refine .inr ⟨hpres, htop, ?_⟩
    refine ⟨t.format.leaf r.level (T.memory.entry r.table (tableIndex a r.level)), ?_, rfl⟩
    rw [t.leaf?_of_mem ha hr, t.format.leafBelow_of_not_table hend]
    unfold Format.leafOf
    rw [if_pos hpres]
  · exact .inl (hbare.eq_zero (Bool.not_eq_true _ ▸ hpres))

/-- a leaf is where the way of its address ends -/
theorem Owns.exists_leaf_entry (h : t.Owns others own T) (hl : level ≤ t.format.topLeafLevel)
    (hleaf : t.LeafAt T.memory a level) : ∃ p, ⟨p, level⟩ ∈ t.path T.memory a ∧
      t.format.isTable (T.memory.entry p (tableIndex a level)) level = false ∧
      t.format.isPresent (T.memory.entry p (tableIndex a level)) = true := by
  have ha := hleaf.inRange
  obtain ⟨l, hl₁, horder⟩ := hleaf
  obtain ⟨r, hr, hend, h0 | ⟨hpres, htop, l', hl₂, horder'⟩⟩ := h.way_ends ha
  · rw [t.leaf?_of_mem ha hr, t.format.leafBelow_of_not_table hend, h0, t.format.leafOf_zero] at hl₁
    cases hl₁
  · obtain rfl := Option.some.inj (hl₁.symm.trans hl₂)
    have h4 := t.format.topLeafLevel_le
    obtain rfl : level = r.level := levelOrder_inj (Nat.le_trans hl h4) (Nat.le_trans htop h4)
      (horder.symm.trans horder')
    exact ⟨r.table, hr, hend, hpres⟩

/-- where the leaf of an address is above its target, a walk puts the page that it is offered in its place, and
goes on from there -/
theorem Calm.reach_split (hh : env.Honest) (hc : t.Calm env) (h : t.Owns others own (t.tables m)) (gap : AtGap)
    (htop : target + d + 1 ≤ t.format.topLeafLevel) (hleaf : t.LeafAt m.memory a (target + d + 1))
    (hs : env.supply m = (k, some q)) :
    ∃ n own', t.reach a target gap env m = t.descend a target gap d q env n ∧
      t.Quiet others own own' (t.tables m) (t.tables n) ∧ ⟨q, target + d⟩ ∈ t.path n.memory a ∧
      t.format.isTable (n.memory.entry q (tableIndex a (target + d))) (target + d) = false ∧
      t.format.isPresent (n.memory.entry q (tableIndex a (target + d))) = true ∧ q.frame ∈ n.live := by
  have ha := hleaf.inRange
  obtain ⟨p, hon, ht, hpres⟩ := h.exists_leaf_entry htop hleaf
  have hgap : gap = .stop → m.memory.entry p (tableIndex a (target + d + 1)) ≠ 0 := fun _ =>
    t.format.ne_zero_of_isPresent hpres
  obtain ⟨n, hn, hat, _⟩ := hc.child_attached (h.own_of_mem_path ha hon) rfl ht hh h hgap hs
  refine ⟨n, _, ?_, h.publish hat, h.mem_path_attached hat ha hon, ?_, h.isPresent_attached hat ha hon hpres,
    (hat.inUse _).mpr (.inr rfl)⟩
  · rw [Rely.reach_from t env gap (d := d + 1) hon, descend, Act.bind_apply, hn]
  · exact (hat.fresh _ (tableIndex_lt a _)).not_table

/-- `level` is that of the leaf of `a` if this is above `target`, and `target` otherwise -/
structure SplitLevel (t : Tree) (m : Memory) (a : GuestAddr) (target level : Nat) : Prop where
  le : target ≤ level
  top : level ≤ t.format.topLeafLevel
  leaf : ∀ l, target < l → l ≤ t.format.topLeafLevel → (t.LeafAt m a l ↔ l = level)

theorem exists_splitLevel (t : Tree) (m : Memory) (a : GuestAddr) (ht : target ≤ t.format.topLeafLevel) :
    ∃ level, t.SplitLevel m a target level := by
  by_cases hlarge : ∃ level, target < level ∧ level ≤ t.format.topLeafLevel ∧ t.LeafAt m a level
  · obtain ⟨level, hlt, htop, hleaf⟩ := hlarge
    refine ⟨level, Nat.le_of_lt hlt, htop, fun l hl hl' => ⟨fun h => h.unique hleaf hl' htop, ?_⟩⟩
    rintro rfl
    exact hleaf
  · refine ⟨target, Nat.le_refl _, ht, fun l hl hl' => ⟨fun h => absurd ⟨l, hl, hl', h⟩ hlarge, ?_⟩⟩
    rintro rfl
    exact absurd hl (Nat.lt_irrefl _)

/-- the tables from there down to the target are not there -/
theorem SplitLevel.not_mem_path (hs : t.SplitLevel T.memory a target level) (h : t.Owns others own T) {j : Nat}
    (hj : target ≤ j) (hlt : j < level) (q : PhysAddr) : ⟨q, j⟩ ∉ t.path T.memory a := by
  intro hq
  have hleaf := (hs.leaf level (Nat.lt_of_le_of_lt hj hlt) hs.top).mpr rfl
  obtain ⟨p, hp, hend, _⟩ := h.exists_leaf_entry hs.top hleaf
  have hle : level ≤ j := t.format.level_le_of_not_table hp hend hq
  exact absurd hlt (Nat.not_lt.mpr hle)

/-- where no leaf is larger than the entries, a walk takes no page and changes nothing -/
theorem Owns.reach_in_place (h : t.Owns others own (t.tables m)) (ha : t.format.inRange a = true)
    (hs : t.SplitLevel m.memory a target target) : ∃ s, (∀ env : Env σ, t.reach a target .stop env m = .ok s m) ∧
      ∀ I : Layout → Machine σ → Prop, I own m → Rely.FoundSlot t I (fun _ _ => False) a .stop target s own m := by
  obtain ⟨r, hr, hend, hlast⟩ := h.way_ends ha
  rcases Nat.lt_or_ge target r.level with hlt | hle
  · rcases hlast with h0 | ⟨_, htop, hleaf⟩
    · exact ⟨none, fun env => Rely.reach_of_gap t env hlt hr h0, fun I hI =>
        ⟨hI, rfl, r.level, r.table, hlt, ⟨h.own_of_mem_path ha hr, .inl hr⟩, h0⟩⟩
    · have heq := (hs.leaf r.level hlt htop).mp hleaf
      exact absurd hlt (by rw [heq]; exact Nat.lt_irrefl _)
  · have hroot : target ≤ t.format.rootLevel := Nat.le_trans hs.top (Nat.le_of_lt t.format.topLeafLevel_lt)
    obtain ⟨c, hc⟩ := t.format.exists_mem_path_at hr hle hroot
    exact ⟨_, fun env => Rely.reach_of_mem_path t env _ hc, fun I hI =>
      ⟨hI, c, rfl, h.own_of_mem_path ha hc, .inl hc⟩⟩

section
variable {p : Mapping} {order : Nat} (h : t.Owns others own (t.tables m)) (hr : t.format.refusal? p order = none)
  (hmap : p.maps = false)
include h hr hmap

/-- where no leaf is larger than the entries, an update asks for no page -/
theorem update_without_pages (hs : t.SplitLevel m.memory p.gpa (p.leafLevel order t.format.topLeafLevel)
      (p.leafLevel order t.format.topLeafLevel)) (env : Env σ) :
    ∃ n, t.update p order env m = .ok (p.coveredOrder t.format order) n ∧ m.Drew 0 n := by
  obtain ⟨s, hreach, _⟩ := Owns.reach_in_place (m := t.enterWalk m) ((alike_enterWalk m).tables ▸ h)
    (Format.accepts_of_refusal? hr).inRange hs
  obtain ⟨n, hn, hdrew⟩ := update_of_reach_drew (s := s) (k := t.enterWalk m) hr (by
    rw [hmap, if_neg Bool.false_ne_true]
    exact hreach env)
  exact ⟨n, hn, (Machine.Drew.of_same (n := t.enterWalk m) rfl).trans hdrew⟩

omit hr hmap in
/-- on the way to its entries an update splits a larger leaf, with one page for each level -/
theorem Alone.reach_splits (hh : env.Honest) (ha : env.Alone) (hin : t.format.inRange p.gpa = true) {target d : Nat}
    (hs : t.SplitLevel m.memory p.gpa target (target + d)) :
    Yields env (t.SplitShort env p.gpa (target + d) target own (t.enterWalk m)) own
      (Rely.FoundSlot t (fun own' n => t.SplitTo p.gpa (target + d) target own (t.tables m) own' (t.tables n) ∧
        (t.enterWalk m).Drew d n) (fun _ _ => False) p.gpa .stop target)
      (t.reach p.gpa target .stop env (t.enterWalk m)) := by
  have henter : t.tables (t.enterWalk m) = t.tables m := (alike_enterWalk m).tables
  cases d with
  | zero =>
    obtain ⟨s, hreach, hfound⟩ := Owns.reach_in_place (m := t.enterWalk m) (henter ▸ h) hin hs
    rw [hreach env]
    refine ⟨own, .refl own, hfound _ ⟨?_, .of_same rfl⟩⟩
    rw [henter]
    exact .refl _ own _
  | succ d =>
    have hleaf := (hs.leaf _ (Nat.lt_add_of_pos_right d.succ_pos) hs.top).mpr rfl
    obtain ⟨q, hon, ht, hpres⟩ := h.exists_leaf_entry hs.top hleaf
    have hsplit := Alone.descend_splits (m := t.enterWalk m) hh ha (henter ▸ h) hin hon ht hpres
    rw [henter, ← Rely.reach_from (m := t.enterWalk m) t env .stop hon] at hsplit
    exact hsplit

/-- a larger leaf is split, with one page for each level down to the entries -/
theorem Alone.update_splits (hh : env.Honest) (ha : env.Alone)
    (hs : t.SplitLevel m.memory p.gpa (p.leafLevel order t.format.topLeafLevel) level) :
    Yields env (t.SplitShort env p.gpa level (p.leafLevel order t.format.topLeafLevel) own m) own
      (fun c own' n => c = p.coveredOrder t.format order ∧
        m.Drew (level - p.leafLevel order t.format.topLeafLevel) n ∧
        ∃ k, t.SplitTo p.gpa level (p.leafLevel order t.format.topLeafLevel) own (t.tables m) own' (t.tables k) ∧
          t.Lands (fun _ _ => False) p order own' k n)
      (t.update p order env m) := by
  have hgap : (if p.maps then AtGap.grow else .stop) = .stop := by rw [hmap, if_neg Bool.false_ne_true]
  obtain ⟨d, rfl⟩ := Nat.exists_eq_add_of_le hs.le
  rw [Nat.add_sub_cancel_left]
  have hreach := Alone.reach_splits h hh ha (Format.accepts_of_refusal? hr).inRange hs
  rw [← hgap] at hreach
  have hup := update_yields (J := fun _ _ => True) hr (fun _ _ => trivial)
    (hreach.mono (fun _ _ _ => trivial) fun _ _ _ => id)
  cases hrun : t.reach p.gpa (p.leafLevel order t.format.topLeafLevel) (if p.maps then .grow else .stop) env
      (t.enterWalk m) with
  | ok s k =>
    rw [hrun] at hreach
    obtain ⟨_, _, ⟨_, hdrew⟩, _⟩ := hreach
    obtain ⟨n, hn, hrest⟩ := update_of_reach_drew hr hrun
    rw [hn] at hup ⊢
    obtain ⟨own', hx, hcov, k', ⟨hsplit, _⟩, _, hlands⟩ := hup
    have hbegin : m.Drew 0 (t.enterWalk m) := .of_same rfl
    refine ⟨own', hx, hcov, ?_, k', hsplit, hlands⟩
    rw [← Nat.zero_add d]
    exact hbegin.trans (hdrew.trans hrest)
  | error e k =>
    rw [hrun] at hreach
    rw [update_of_reach_error p order hr hrun]
    match e, hreach with
    | .failed _, ⟨he, own', hx, hshort⟩ => exact ⟨he, own', hx, hshort.of_walk⟩
    | .stuck, ⟨hstuck, _⟩ => exact absurd (Calm.of_alone (t := t) ha).paced hstuck

/-- the way of an address without a leaf grows no longer, however the update ends -/
theorem Alone.update_path (hh : env.Honest) (ha : env.Alone) (hb : t.format.inRange b = true)
    (hnone : t.leaf? m.memory b = none) {r : TableRef} (hin : r ∈ t.path ((t.update p order).after env m).memory b) :
    r ∈ t.path m.memory b := by
  obtain ⟨level, hs⟩ := t.exists_splitLevel m.memory p.gpa (p.leafLevel_le order t.format.topLeafLevel)
  have hup := Alone.update_splits h hr hmap hh ha hs
  unfold Act.after at hin
  cases hrun : t.update p order env m with
  | ok c n =>
    rw [hrun] at hup hin
    obtain ⟨own', _, _, _, k, hsplit, hl⟩ := hup
    have hpath : t.path k.memory b = t.path m.memory b := hsplit.path_of_none h hb hnone
    rw [← hpath]
    exact hl.mem_path_of (hsplit.grown.quiet h).owns (Format.accepts_of_refusal? hr) hb hin
  | error e n =>
    rw [hrun] at hup hin
    match e, hup with
    | .failed _, ⟨_, own', _, _, _, _, _, _, hsplit, _⟩ =>
      have hpath : t.path n.memory b = t.path m.memory b := hsplit.path_of_none h hb hnone
      rw [← hpath]
      exact hin
    | .stuck, ⟨hstuck, _⟩ => exact absurd (Calm.of_alone (t := t) ha).paced hstuck

end

/-! ## a block of 1 GB -/

/-- the first block of 1 GB is mapped, and `d` pages are left -/
theorem exists_largeBlock (d : Nat) (hd : d < 2 ^ 35) (client : σ) : ∃ (t : Tree) (m : Machine σ),
    t.Reachable (fun _ => False) m ∧ t.format = .extended ∧
      (∀ a : GuestAddr, a.bits.toNat < 2 ^ 30 → t.LeafAt m.memory a 2) ∧
      (Env.offering (List.range' 2 (1 + d))).Room d m := by
  let block : Mapping := ⟨⟨0⟩, ⟨0⟩, .ofPerms .readWrite⟩
  have hh : (Env.offering (List.range' 2 (1 + d)) : Env σ).Honest := Env.honest_behind (by omega)
  obtain ⟨t, m₀, hm₀, hf, hlive, _, _⟩ := Reachable.exists_empty .extended client
  obtain ⟨own, ho⟩ := hm₀.owns
  have hc : t.Calm (.offering (List.range' 2 (1 + d)) : Env σ) := .offering t _
  have hroom : (Env.offering (List.range' 2 (1 + d))).Room (1 + d) m₀ :=
    (Machine.Spare.behind (fun i hi => (hlive i).mp hi) (1 + d)).room
  have hr : t.format.refusal? block 18 = none := by
    rw [hf]
    decide
  obtain ⟨m, _, hup, _, hroom'⟩ := hc.update_leaves_room hh ho hr (by rw [hf]; decide) hroom
  have hshape := hc.update_shape hh ho hr rfl
  rw [hup] at hshape
  obtain ⟨_, _, _, _, hon, _⟩ := hshape
  have hlevel : block.leafLevel 18 t.format.topLeafLevel = 2 := by
    rw [hf]
    decide
  have hcovered : block.coveredOrder t.format 18 = 18 := by
    rw [hf]
    decide
  rw [hlevel, hcovered] at hon
  refine ⟨t, m, hm₀.updated hh hc hup, hf, fun a ha => hon a ⟨Nat.zero_le _, ?_⟩, hroom'⟩
  rw [show block.gpa.bits.toNat + 2 ^ (12 + 18) = 2 ^ 30 by decide]
  exact ha

end Tree

end NestedPaging
