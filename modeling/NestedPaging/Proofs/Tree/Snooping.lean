import NestedPaging.Proofs.Tree.Provision
import NestedPaging.Proofs.Tree.Sights

/-!
# What a walker finds that does not snoop caches

A tree with a cleaner keeps its tables fit for a walker that does not snoop caches. In every run of
operations on it, whenever a page is asked for and between operations, the walker sees every table it
can reach as it is; and at each event, every table that it is led to is in use and written back as a
whole (`snooped`). Pages may be handed out with old contents in the walker's view, and allocations may
fail. Whoever runs the operations can note the length of the trace between any two of them, also while
another one waits for a page.
-/

namespace NestedPaging

open PhysAddr (IsPage)

variable {σ : Type}

namespace Tree

/-- the tables to be reached from the root, each through an entry in memory or as the walker sees it -/
inductive LeadsTo (t : Tree) (v : Sight) : Nat → PhysAddr → Prop
  | root : LeadsTo t v t.format.rootLevel t.root
  | held {l i : Nat} {p : PhysAddr} : LeadsTo t v (l + 1) p → i < 512 →
      t.format.isTable (v.memory.entry p i) (l + 1) = true →
      LeadsTo t v l (entryAddress (v.memory.entry p i))
  | seen {l i : Nat} {p : PhysAddr} : LeadsTo t v (l + 1) p → i < 512 →
      t.format.isTable (v.entry p i) (l + 1) = true → LeadsTo t v l (entryAddress (v.entry p i))

/-- the walker sees every table that it can reach as it is -/
def Current (t : Tree) (v : Sight) : Prop :=
  ∀ l p i, t.LeadsTo v l p → i < 512 → v.entry p i = v.memory.entry p i

/-- each table that the walker is led to is in use, and all its words were written back -/
def Trusted (t : Tree) (v : Sight) : Prop :=
  ∀ l p i, t.LeadsTo v l p → i < 512 → t.format.isTable (v.entry p i) l = true →
    (entryAddress (v.entry p i)).frame ∈ v.live ∧ v.Settled (entryAddress (v.entry p i))

/-- runs of operations on one tree, with others at work on it whenever a page is asked for -/
inductive Runs (t : Tree) (noted : σ → List Nat) : Machine σ → Machine σ → Prop
  | refl (m : Machine σ) : Runs t noted m m
  | trans {m k n : Machine σ} : Runs t noted m k → Runs t noted k n → Runs t noted m n
  /-- between operations whoever runs them may note how long the trace is -/
  | client (m : Machine σ) (client : σ) :
      (∀ j ∈ noted client, j ∈ noted m.client ∨ j = m.trace.size) → Runs t noted m { m with client }
  /-- an operation, however it ends -/
  | op {env : Env σ} (op : TreeOp) (m : Machine σ) : env.Honest →
      (∀ k, Runs t noted k (env.supply k).1) → Runs t noted m ((t.perform op).after env m)

/-- at each length of the trace that was noted in `n` since `m`, the walker saw what it can reach as it
was -/
def CurrentAt (t : Tree) (noted : σ → List Nat) (v : Sight) (es : List Event) (m n : Machine σ) : Prop :=
  ∀ j ∈ noted n.client, j ∈ noted m.client ∨
    ∃ gs hs, es = gs ++ hs ∧ j = m.trace.size + gs.length ∧ t.Current (v.replay gs)

variable {t : Tree} {own own' : Layout} {m₀ m k n : Machine σ} {v : Sight} {es fs : List Event}
  {c : Cleaner} {env : Env σ} {split : Bool} {l : Nat} {p : PhysAddr} {noted : σ → List Nat}

theorem Shown.own_of_leadsTo (h : t.Shown own v) (hf : t.LeadsTo v l p) :
    ∃ x, own p = some ⟨l, x⟩ := by
  induction hf with
  | root => exact ⟨0, h.root⟩
  | held _ hi ht ih =>
    obtain ⟨x, hp⟩ := ih
    obtain ⟨k, y, hk, hc⟩ := h.memory hp hi ht
    obtain rfl := Nat.succ.inj hk
    exact ⟨y, hc⟩
  | seen _ hi ht ih =>
    obtain ⟨x, hp⟩ := ih
    obtain ⟨k, y, hk, hc⟩ := h.seen hp hi ht
    obtain rfl := Nat.succ.inj hk
    exact ⟨y, hc⟩

theorem Shown.trusted (h : t.Shown own v) : t.Trusted v := by
  intro l p i hf hi ht
  obtain ⟨x, hp⟩ := h.own_of_leadsTo hf
  obtain ⟨k, y, _, hc⟩ := h.seen hp hi ht
  exact ⟨h.live hc, h.settled hc⟩

theorem Shown.current (h : t.Shown own v) (ha : Agrees own v .idle) : t.Current v := by
  intro l p i hf hi
  obtain ⟨x, hp⟩ := h.own_of_leadsTo hf
  exact ha hp hi id

/-! ## runs -/

/-- from the moment `v` of `m₀` on, each event was safe; now the tree owns its pages and the walker
sees them as they are -/
def Followed (t : Tree) (noted : σ → List Nat) (m₀ : Machine σ) (v : Sight) (split : Bool) (own : Layout)
    (m : Machine σ) : Prop :=
  m.splitExecute = split ∧ (∃ others, t.Owns others own (t.tables m)) ∧
    ∃ es, m₀.Logs es m ∧ Sight.Before t.Safe v es ∧ t.CurrentAt noted v es m₀ m ∧
      t.Watched own .idle (v.replay es) m

section
variable (hc : t.cleaner = some c) (hw : c.WholeWords)
include hc hw

theorem Followed.moves (h : t.Followed noted m₀ v split own m)
    (hm : t.Moves own .idle m own' .idle n) : t.Followed noted m₀ v split own' n := by
  obtain ⟨hsplit, ⟨others, ho⟩, es, hl, hb, hnoted, hv⟩ := h
  obtain ⟨fs, hl', hb', hn⟩ := hm.watched hc hw hv
  refine ⟨hm.local.split.trans hsplit, ⟨others, (hm.owns (show t.OwnsAt others own _ .idle from ho)).2⟩,
    es ++ fs, hl.trans hl', Sight.before_append.mpr ⟨hb, hb'⟩, fun j hj => ?_, ?_⟩
  · rw [hm.local.client] at hj
    refine (hnoted j hj).imp id fun ⟨gs, hs, hes, hrest⟩ => ⟨gs, hs ++ fs, ?_, hrest⟩
    rw [hes, List.append_assoc]
  · rw [Sight.replay_append]
    exact hn

omit hc hw in
theorem Followed.counted (h : t.Followed noted m₀ v split own m) {f : TreeState → TreeState}
    (hr : ∀ s, (f s).retired = s.retired) (hd : ∀ s, (f s).released = s.released) :
    t.Followed noted m₀ v split own (t.changeState f m) := by
  obtain ⟨hsplit, ho, es, hl, hb, hnoted, hv⟩ := h
  refine ⟨hsplit, ?_, es, hl, hb, hnoted, hv.of, hv.shown, hv.agrees⟩
  rw [(alike_changeState m hr hd).tables]
  exact ho

theorem Followed.run (hr : t.Runs noted m n) (m₀ : Machine σ) (v : Sight) (split : Bool) (own : Layout)
    (h : t.Followed noted m₀ v split own m) :
    ∃ own', own'.Extends own ∧ t.Followed noted m₀ v split own' n := by
  induction hr generalizing own with
  | refl m => exact ⟨own, .refl own, h⟩
  | trans _ _ ih ih' =>
    obtain ⟨own', hx, hk⟩ := ih own h
    obtain ⟨own'', hx', hn⟩ := ih' own' hk
    exact ⟨own'', hx'.trans hx, hn⟩
  | client m client hnew =>
    obtain ⟨hsplit, ho, es, hl, hb, hnoted, hv⟩ := h
    refine ⟨own, .refl own, hsplit, ho, es, hl, hb, fun j hj => ?_, hv.of, hv.shown, hv.agrees⟩
    rcases hnew j hj with hj | rfl
    · exact hnoted j hj
    · exact .inr ⟨es, [], (List.append_nil es).symm, hl.size, hv.shown.current hv.agrees⟩
  | op op m hh _ ih =>
    have hsustains : t.Sustains _ (t.Followed noted m₀ v split) (t.Followed noted m₀ v split) := {
      honest := hh
      owns := fun hK => hK.2.1
      enter := fun hK => hK.counted (fun _ => rfl) fun _ => rfl
      leave := fun hK => hK.counted (fun _ => rfl) fun _ => rfl
      moves := fun hK hm => hK.moves hc hw hm
      supply := fun {own j} hK => by
        obtain ⟨own', hx, hn⟩ := ih j own hK
        exact ⟨own', hx, hn, hn.1.trans hK.1.symm⟩ }
    exact hsustains.perform op h

end

/-! ## creation -/

theorem logs_create {f : Format} {cleaner : Option Cleaner} (h : create f cleaner env m = .ok t n)
    (hs : env.supply m = (k, some t.root)) :
    k.Logs (.allocated t.root 0 :: t.cleaning t.root 4096 (k.take t.root 0).memory) n := by
  obtain ⟨k', hs', _, _, rfl⟩ := create_eq h
  obtain rfl : k = k' := congrArg Prod.fst (hs.symm.trans hs')
  exact (Machine.Logs.push (e := .allocated t.root 0) rfl).trans ((k.take t.root 0).logs_noteAll _)

/-- a tree whose root was written back and holds zeros is seen as it is -/
theorem Watched.rootOnly (hof : v.Of m) (hq : IsPage t.root) (hl : t.root.frame ∈ v.live)
    (hword : ∀ i < 512, v.settled (t.root.add (i * 8).toUInt64) ∧ v.entry t.root i = 0 ∧
      v.memory.entry t.root i = 0) : t.Watched t.rootOnly .idle v m := by
  have hnone : ∀ {entry : PhysAddr → Nat → Word}, (∀ i, i < 512 → entry t.root i = 0) →
      t.Inside t.rootOnly entry := by
    intro entry hz p r i hp hi ht
    obtain ⟨rfl, rfl⟩ := eq_of_rootOnly hp
    rw [hz i hi, t.format.isTable_zero] at ht
    cases ht
  refine ⟨hof, ⟨t.rootOnly_root, fun hp => ?_, fun hp => ?_, fun hp i hi => ?_,
    hnone fun i hi => (hword i hi).2.2, hnone fun i hi => (hword i hi).2.1⟩, fun p r i hp hi _ => ?_⟩
  · exact (eq_of_rootOnly hp).1 ▸ hq
  · exact (eq_of_rootOnly hp).1 ▸ hl
  · rw [(eq_of_rootOnly hp).1]
    exact (hword i hi).1
  · rw [(eq_of_rootOnly hp).1]
    exact (hword i hi).2.1.trans (hword i hi).2.2.symm

/-- a new tree is followed from the moment after its creation on -/
theorem create_followed (noted : σ → List Nat) {f : Format} (hw : c.WholeWords) (hh : env.Honest)
    (h : create f (some c) env m = .ok t n) (hv : v.Of (env.supply m).1)
    (hes : (env.supply m).1.Logs es n) :
    t.cleaner = some c ∧ ∃ own, t.Followed noted n (v.replay es) n.splitExecute own n := by
  have hown : t.Owns (fun i => i ∈ (env.supply m).1.live) t.rootOnly (t.tables n) :=
    .create hh (fun _ => Iff.rfl) h
  obtain ⟨k, hs, hc, _, hn⟩ := create_eq h
  obtain ⟨hq, _⟩ := hh m t.root (by rw [hs])
  have hlogs := logs_create h hs
  rw [hs] at hv hes
  obtain rfl := List.append_cancel_left (hes.symm.trans hlogs)
  refine ⟨hc, t.rootOnly, rfl, ⟨_, hown⟩, [], .refl rfl, trivial, fun _ => .inl, ?_⟩
  -- the words of its root are zero, and were written back
  have hcleaning : t.cleaning t.root 4096 (k.take t.root 0).memory
      = c.events t.root 4096 (k.take t.root 0).memory := by
    unfold cleaning
    rw [hc]
  rw [hcleaning]
  obtain ⟨hmem, hlive⟩ := Sight.replay_plain_same (v := v.after (.allocated t.root 0))
    (c.plain_events t.root 4096 (k.take t.root 0).memory)
  refine .rootOnly ⟨hmem.trans ?_, hlive.trans ?_⟩ hq ?_ (Sight.replay_cleared hw hq v _)
  · rw [hn]
    exact congrArg (·.fill t.root.frame 0) hv.1
  · rw [hn]
    exact congrArg (·.insert t.root.frame) hv.2
  · exact hlive.symm ▸ Std.HashSet.mem_insert_self

/-- in every run of operations on a new tree with a cleaner, a walker that does not snoop caches sees
the tables it can reach as they are whenever a page is asked for and between operations, and is led to no
page that was not written back -/
theorem snooped {f : Format} (hw : c.WholeWords) (hh : env.Honest)
    (h : create f (some c) env m₀ = .ok t m) (hv : v.Of (env.supply m₀).1)
    (hes : (env.supply m₀).1.Logs es m) (hr : t.Runs noted m n) (hfs : m.Logs fs n) :
    (v.replay (es ++ fs)).Of n ∧ t.Current (v.replay (es ++ fs)) ∧
      t.CurrentAt noted (v.replay es) fs m n ∧
      ∀ gs hs, fs = gs ++ hs → t.Trusted (v.replay (es ++ gs)) ∧
        ∀ e ∈ hs.head?, e.Asks → t.Current (v.replay (es ++ gs)) := by
  obtain ⟨hc, own, hfollow⟩ := create_followed noted hw hh h hv hes
  obtain ⟨own', _, _, _, fs', hl, hbefore, hnoted, hend⟩ := Followed.run hc hw hr _ _ _ own hfollow
  obtain rfl := List.append_cancel_left (hfs.symm.trans hl)
  rw [Sight.replay_append]
  refine ⟨hend.of, hend.shown.current hend.agrees, hnoted, fun gs hs hgs => ?_⟩
  subst hgs
  cases hs with
  | nil =>
    rw [List.append_nil] at hend
    rw [Sight.replay_append]
    exact ⟨hend.shown.trusted, nofun⟩
  | cons e hs =>
    obtain ⟨own'', hshown, hasks⟩ := hbefore.of_append
    rw [Sight.replay_append]
    refine ⟨hshown.trusted, fun e' he' ha => hshown.current (hasks ?_)⟩
    obtain rfl := Option.some.inj he'
    exact ha

/-- a page is mapped in a new tree, while the walker sees ones in all the pages that are handed out -/
theorem snooped_mapping : ∃ (t : Tree) (v : Sight) (m n : Machine Unit) (es fs : List Event)
    (q : PhysAddr), create .stage2 (some .platform) (.offering [1, 2, 3]) { client := () } = .ok t m ∧
      t.Runs (fun _ => []) m n ∧ m.Logs fs n ∧ ⟨q, 0⟩ ∈ t.path n.memory ⟨0⟩ ∧ (∀ a, v.seen a = 1) ∧
      (v.replay (es ++ fs)).Of n ∧ t.Current (v.replay (es ++ fs)) ∧
      ∀ gs hs, fs = gs ++ hs → t.Trusted (v.replay (es ++ gs)) := by
  let page : Mapping := ⟨⟨0⟩, ⟨0x1000⟩, .ofPerms .readWrite⟩
  let v : Sight := ⟨({ client := () } : Machine Unit).memory, {}, fun _ => 1, fun _ => False⟩
  have hlt : ∀ i ∈ [1, 2, 3], i < 2 ^ 36 := by decide
  have hh : (Env.offering [1, 2, 3] : Env Unit).Honest := Env.honest_offering hlt
  have hw : Cleaner.platform.WholeWords := trivial
  have hs : (Env.offering [1, 2, 3] : Env Unit).supply { client := () }
      = ({ client := () }, some (.ofFrame 1)) := Env.offering_free Std.HashSet.not_mem_empty
  obtain ⟨t, m, hcr, hf, hroot, _⟩ := create_offered hs .stage2 (some .platform)
  obtain ⟨k, hk, _, _, hn⟩ := create_eq hcr
  have hlive : m.live = k.live.insert t.root.frame := congrArg Machine.live hn
  have hfree : k = { client := () } := congrArg Prod.fst (hk.symm.trans hs)
  have hv : v.Of ((Env.offering [1, 2, 3] : Env Unit).supply { client := () }).1 := by
    rw [hs]
    exact ⟨rfl, rfl⟩
  obtain ⟨es, hes⟩ :
      ∃ es, ((Env.offering [1, 2, 3] : Env Unit).supply { client := () }).1.Logs es m := by
    rw [hk]
    exact ⟨_, logs_create hcr hk⟩
  obtain ⟨hc, own, hfollow⟩ := create_followed (fun _ => []) hw hh hcr hv hes
  -- pages 2 and 3 are free, and become tables
  have hspare : m.Spare [1, 2, 3] 2 := by
    refine ⟨[2, 3], by decide, Nat.le_refl _, fun i hi => ⟨List.mem_cons_of_mem 1 hi, fun hin => ?_⟩⟩
    rw [hlive, hfree, hroot, PhysAddr.frame_ofFrame (by decide), Std.HashSet.mem_insert, beq_iff_eq] at hin
    rcases hin with rfl | hin
    · exact absurd hi (by decide)
    · exact Std.HashSet.not_mem_empty hin
  have hlevel : page.leafLevel 0 t.format.topLeafLevel = 0 := by
    rw [hf]
    decide
  obtain ⟨others, howns⟩ := hfollow.2.1
  obtain ⟨n, q, _, hn, hpath, _⟩ := update_spare hlt howns
    (show t.format.refusal? page 0 = none by
      rw [hf]
      decide)
    rfl (by rw [hf]; exact hspare)
  rw [hlevel] at hpath
  have hr : t.Runs (fun _ => []) m ((t.perform (.update page 0)).after (.offering [1, 2, 3]) m) :=
    .op _ m hh fun j => .refl j
  have hend : (t.perform (.update page 0)).after (.offering [1, 2, 3]) m = n := by
    unfold perform
    rw [Act.after_map, Act.after_of_ok hn]
  rw [hend] at hr
  obtain ⟨_, _, _, _, fs, hfs, _⟩ := Followed.run hc hw hr m _ _ own hfollow
  obtain ⟨hof, hcurrent, _, htrusted⟩ := snooped hw hh hcr hv hes hr hfs
  exact ⟨t, v, m, n, _, fs, q, hcr, hr, hfs, hpath, fun _ => rfl, hof, hcurrent,
    fun gs hs hgs => (htrusted gs hs hgs).1⟩

end Tree

end NestedPaging
