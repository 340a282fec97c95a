import NestedPaging.Proofs.Tree.AccessInvariants
import NestedPaging.Proofs.Tree.Unmapping

/-!
# The words of tables

Each word of a table that can be reached, from the root or from a record of a detached table, is one
that an operation means to write: nothing, the start of a whole block with the bits of attributes that
grant access, or a table of the tree one level down (`Owns.word`). From that:

* `Owns.root_word`     the root holds tables only;
* `Bare.splits`        a leaf is read with access, and split into leaves of the level below;
* `Bare.translation`   the offset in a block adds to its output address without a carry.

This holds between operations, and whenever one of them asks for a page while others run: `Tree.Noting`
are runs of operations in which the tables may be noted at any such time.
-/

namespace NestedPaging

open PhysAddr (IsPage)

variable {σ : Type}

/-! ## leaves -/

namespace Format.Bare
variable {f : Format} {split : Bool} {level : Nat} {w w' : Word}

theorem grantsAccess (h : f.Bare split level w) (hw : f.isPresent w = true) :
    (f.attrs w).perms.grantsAccess = true := by
  obtain ⟨p, a, _, hp, _, ha, rfl⟩ := h.eq_leaf hw
  rw [f.attrs_leafWord hp ha, f.grantsAccess_stored]
  exact ha

/-- the parts of a leaf are leaves -/
theorem splits (h : f.Bare split (level + 1) w) (hw : f.isPresent w = true)
    (hw' : w' ∈ f.splitEntries split (level + 1) w) :
    f.isPresent w' = true ∧ f.Bare split level w' := by
  obtain ⟨p, a, hl, hp, hd, ha, rfl⟩ := h.eq_leaf hw
  rw [f.splitEntries_leafWord hp ha] at hw'
  obtain ⟨i, hi, rfl⟩ := List.mem_map.mp hw'
  have hi' := List.mem_range.mp hi
  have hl4 : level + 1 ≤ 4 := Nat.le_trans hl f.topLeafLevel_le
  have ha' : (f.stored split a).perms.grantsAccess = true := f.grantsAccess_stored.trans ha
  have hpart : 2 ^ blockBits level ∣ (p.part level i).bits.toNat :=
    dvd_part (Nat.le_of_succ_le hl4) (Nat.dvd_trans (two_pow_blockBits_dvd_succ level) hd) (by omega)
  exact ⟨f.isPresent_leafWord (p.isPage_part level i) ha' level,
    .leaf (Nat.le_of_succ_le hl) (p.isPage_part level i) hpart ha'⟩

/-- an offset in the block of a leaf is added to its output address without a carry -/
theorem translation (h : f.Bare split level w) (hw : f.isPresent w = true) (g : GuestAddr) :
    2 ^ (12 + (f.leaf level w).order) ∣ (f.leaf level w).base.bits.toNat ∧
    ((f.leaf level w).physAddr g).bits.toNat
      = (f.leaf level w).base.bits.toNat + g.bits.toNat % 2 ^ (12 + (f.leaf level w).order) ∧
    ((f.leaf level w).physAddr g).bits.toNat / 2 ^ (12 + (f.leaf level w).order)
      = (f.leaf level w).base.bits.toNat / 2 ^ (12 + (f.leaf level w).order) ∧
    ((f.leaf level w).physAddr g).bits.toNat < 2 ^ 48 := by
  obtain ⟨p, a, htop, hp, hd, ha, rfl⟩ := h.eq_leaf hw
  have hl : level ≤ 4 := Nat.le_trans htop f.topLeafLevel_le
  have horder : 12 + (f.leaf level (f.leafWord split level p a)).order = blockBits level :=
    congrArg (12 + ·) (levelOrder_of_le hl)
  have hbase : (f.leaf level (f.leafWord split level p a)).base = p := f.entryAddress_leafWord hp ha level
  have hsum : ((f.leaf level (f.leafWord split level p a)).physAddr g).bits.toNat
      = p.bits.toNat + g.bits.toNat % 2 ^ blockBits level := by
    have e := toNat_physAddr f g hl (w := f.leafWord split level p a)
    rw [f.entryAddress_leafWord hp ha] at e
    exact e hd
  have hoffset : g.bits.toNat % 2 ^ blockBits level < 2 ^ blockBits level :=
    Nat.mod_lt _ (Nat.two_pow_pos _)
  have hroom := add_le_of_dvd hd (two_pow_blockBits_dvd hl) hp.low
  rw [horder, hbase, hsum]
  refine ⟨hd, rfl, ?_, by omega⟩
  rw [Nat.add_div_of_dvd_right hd, Nat.div_eq_of_lt hoffset, Nat.add_zero]

end Format.Bare

namespace Tree

/-! ## tables and their words -/

/-- the tables that are reached from the root or from a record of a detached table, with their levels -/
inductive Reaches (t : Tree) (T : Tables) : Nat → PhysAddr → Prop
  | root : Reaches t T t.format.rootLevel t.root
  | record {r : TableRef} : r ∈ T.retired → Reaches t T r.level r.table
  | entry {l i : Nat} {p : PhysAddr} : Reaches t T (l + 1) p → i < 512 →
      t.format.isTable (T.memory.entry p i) (l + 1) = true →
      Reaches t T l (entryAddress (T.memory.entry p i))

/-- every word that can be reached is well formed -/
structure WellFormed (t : Tree) (others : Nat → Prop) (T : Tables) : Prop where
  /-- a word is nothing, a leaf, or a table one level down in a page that the tree took -/
  word : ∀ {l p i}, t.Reaches T l p → i < 512 → t.format.Bare T.split l (T.memory.entry p i) ∨
    ∃ k q, l = k + 1 ∧ T.memory.entry p i = q.bits ||| t.format.tableBits ∧ IsPage q ∧
      t.Reaches T k q ∧ T.inUse q.frame ∧ ¬ others q.frame
  /-- no leaf is in the root -/
  root : ∀ {i}, i < 512 → T.memory.entry t.root i ≠ 0 →
    t.format.isTable (T.memory.entry t.root i) t.format.rootLevel = true
  /-- a leaf grants access as it is read, and so does each leaf that it is split into -/
  leaf : ∀ {l p i}, t.Reaches T l p → i < 512 → t.format.isPresent (T.memory.entry p i) = true →
    t.format.isTable (T.memory.entry p i) l = false →
    l ≤ t.format.topLeafLevel ∧ (t.format.attrs (T.memory.entry p i)).perms.grantsAccess = true ∧
      ∀ k, l = k + 1 → ∀ w ∈ t.format.splitEntries T.split l (T.memory.entry p i),
        t.format.isPresent w = true ∧ t.format.Bare T.split k w
  /-- the offset in a block neither carries into its output address nor leaves the output space -/
  translation : ∀ {a l}, t.leaf? T.memory a = some l →
    2 ^ (12 + l.order) ∣ l.base.bits.toNat ∧
    (l.physAddr a).bits.toNat = l.base.bits.toNat + a.bits.toNat % 2 ^ (12 + l.order) ∧
    (l.physAddr a).bits.toNat / 2 ^ (12 + l.order) = l.base.bits.toNat / 2 ^ (12 + l.order) ∧
    (l.physAddr a).bits.toNat < 2 ^ 48

namespace Owns
variable {t : Tree} {others : Nat → Prop} {own : Layout} {T : Tables} {p : PhysAddr} {l i : Nat}

section
variable (h : t.Owns others own T)
include h

theorem own_of_reaches (hp : t.Reaches T l p) : ∃ x, own p = some ⟨l, x⟩ := by
  induction hp with
  | root => exact ⟨0, h.root⟩
  | record hr => exact h.record hr
  | entry _ hi ht ih =>
    obtain ⟨x, hp⟩ := ih
    obtain ⟨k, hk, hc⟩ := h.child hp hi ht
    obtain rfl := Nat.succ.inj hk
    exact ⟨_, hc⟩

theorem bare_of_reaches (hp : t.Reaches T l p) (hi : i < 512)
    (ht : t.format.isTable (T.memory.entry p i) l = false) :
    t.format.Bare T.split l (T.memory.entry p i) := by
  obtain ⟨x, hx⟩ := h.own_of_reaches hp
  exact (h.entry hx hi).bare_of_not_table h.isPage ht

theorem word (hp : t.Reaches T l p) (hi : i < 512) :
    t.format.Bare T.split l (T.memory.entry p i) ∨
      ∃ k q, l = k + 1 ∧ T.memory.entry p i = q.bits ||| t.format.tableBits ∧ IsPage q ∧
        t.Reaches T k q ∧ T.inUse q.frame ∧ ¬ others q.frame := by
  obtain ⟨x, hx⟩ := h.own_of_reaches hp
  have hentry := h.entry hx hi
  obtain ⟨w, hw⟩ : ∃ w, T.memory.entry p i = w := ⟨_, rfl⟩
  rw [hw] at hentry ⊢
  cases hentry with
  | bare hb => exact .inl hb
  | @table q k hk hq =>
    obtain rfl : l = k + 1 := hk
    have hpage := h.isPage hq
    have hbelow := Reaches.entry hp hi (hw ▸ t.format.isTable_tableWord hpage k)
    rw [hw, t.format.entryAddress_tableWord hpage] at hbelow
    exact .inr ⟨k, q, rfl, rfl, hpage, hbelow, h.inUse_page hq, h.apart hq⟩

theorem root_word (hi : i < 512) (hw : T.memory.entry t.root i ≠ 0) :
    t.format.isTable (T.memory.entry t.root i) t.format.rootLevel = true := by
  by_contra ht
  have hb := h.bare_of_reaches .root hi (Bool.not_eq_true _ ▸ ht)
  have hpres : t.format.isPresent (T.memory.entry t.root i) = true := by
    by_contra hpres
    exact hw (hb.eq_zero (Bool.not_eq_true _ ▸ hpres))
  obtain ⟨_, _, htop, _⟩ := hb.eq_leaf hpres
  exact absurd htop (Nat.not_le.mpr t.format.topLeafLevel_lt)

/-- what a lookup finds is a leaf of the tree -/
theorem exists_leaf {a : GuestAddr} {leaf : Leaf} (hleaf : t.leaf? T.memory a = some leaf) :
    ∃ level w, t.format.Bare T.split level w ∧ t.format.isPresent w = true ∧
      leaf = t.format.leaf level w := by
  have ha : t.format.inRange a = true := by
    unfold leaf? at hleaf
    split at hleaf
    · assumption
    · cases hleaf
  obtain ⟨r, hr, hend, hentry⟩ := h.way_ends ha
  have hbare := (h.entry (h.own_of_mem_path ha hr) (tableIndex_lt a _)).bare_of_not_table h.isPage hend
  rw [t.leaf?_of_mem ha hr, t.format.leafBelow_of_not_table hend] at hleaf
  rcases hentry with h0 | ⟨hpres, _⟩
  · rw [h0, t.format.leafOf_zero] at hleaf
    cases hleaf
  · refine ⟨r.level, _, hbare, hpres, ?_⟩
    unfold Format.leafOf at hleaf
    rw [if_pos hpres] at hleaf
    exact (Option.some.inj hleaf).symm

theorem wellFormed : t.WellFormed others T where
  word hp hi := h.word hp hi
  root hi hw := h.root_word hi hw
  leaf {l p i} hp hi hpres ht := by
    have hb := h.bare_of_reaches hp hi ht
    obtain ⟨_, _, htop, _⟩ := hb.eq_leaf hpres
    refine ⟨htop, hb.grantsAccess hpres, ?_⟩
    rintro k rfl w hw
    exact hb.splits hpres hw
  translation {a leaf} hleaf := by
    obtain ⟨level, w, hb, hpres, rfl⟩ := h.exists_leaf hleaf
    exact hb.translation hpres a

end

end Owns

/-! ## at any time -/

/-- what is done to a tree, among others that do the same whenever a page is asked for. Whoever does
something else may note the tables as they are -/
inductive Noting (t : Tree) (noted : σ → List Tables) : Machine σ → Machine σ → Prop
  | elsewhere {m n : Machine σ} : t.tables n = t.tables m →
      (∀ T ∈ noted n.client, T ∈ noted m.client ∨ T = t.tables m) → Noting t noted m n
  | trans {m k n : Machine σ} : Noting t noted m k → Noting t noted k n → Noting t noted m n
  /-- an operation, however it ends -/
  | op {m : Machine σ} (env : Env σ) (op : TreeOp) : env.Honest →
      (∀ k, Noting t noted k (env.supply k).1) → Noting t noted m ((t.perform op).after env m)

variable {t : Tree} {others : Nat → Prop} {own own' : Layout} {m k n : Machine σ}
  {noted : σ → List Tables} {s : Bool} {old : List Tables}

theorem Noting.peers (h : t.Noting noted m n) : t.Peers m n := by
  induction h with
  | elsewhere he _ => exact .elsewhere he
  | trans _ _ ih ih' => exact ih.trans ih'
  | op env op hh _ ih => exact .op env op hh ih

theorem Noting.reachable (h : t.Noting noted m n) (hm : t.Reachable others m) :
    t.Reachable others n := by
  induction h with
  | elsewhere he _ => exact .elsewhere hm he
  | trans _ _ ih ih' => exact ih' (ih hm)
  | op env op hh hp _ => exact .op env op hh (fun k => (hp k).peers) hm

/-- the tree owns its pages, and tables that were noted, but for those of `old`, are well formed -/
structure Noted (t : Tree) (others : Nat → Prop) (noted : σ → List Tables) (s : Bool)
    (old : List Tables) (own : Layout) (m : Machine σ) : Prop where
  owns : t.Owns others own (t.tables m)
  split : m.splitExecute = s
  formed : ∀ T ∈ noted m.client, T ∈ old ∨ T.split = s ∧ t.WellFormed others T

/-- what leaves the tables and the client as they are leaves this -/
theorem Noted.same (h : t.Noted others noted s old own m) (ht : t.tables n = t.tables m)
    (hc : n.client = m.client) : t.Noted others noted s old own n := by
  refine ⟨?_, (congrArg Tables.split ht).trans h.split, ?_⟩
  · rw [ht]
    exact h.owns
  · rw [hc]
    exact h.formed

theorem Noted.moves (h : t.Noted others noted s old own m)
    (hm : t.Moves own .idle m own' .idle n) : t.Noted others noted s old own' n := by
  refine ⟨(hm.owns (show t.OwnsAt others own _ .idle from h.owns)).2, hm.local.split.trans h.split, ?_⟩
  rw [hm.local.client]
  exact h.formed

theorem Noting.keeps (hr : t.Noting noted m n) (h : t.Noted others noted s old own m) :
    ∃ own', own'.Extends own ∧ t.Noted others noted s old own' n := by
  induction hr generalizing own with
  | @elsewhere m n he hnew =>
    refine ⟨own, .refl own, he ▸ h.owns, (congrArg Tables.split he).trans h.split, fun T hT => ?_⟩
    rcases hnew T hT with hT | rfl
    · exact h.formed T hT
    · exact .inr ⟨h.split, h.owns.wellFormed⟩
  | trans _ _ ih ih' =>
    obtain ⟨own', hx, hk⟩ := ih h
    obtain ⟨own'', hx', hn⟩ := ih' hk
    exact ⟨own'', hx'.trans hx, hn⟩
  | op env op hh _ ih =>
    have hsustains : t.Sustains env (t.Noted others noted s old) (t.Noted others noted s old) := {
      honest := hh
      owns := fun hK => ⟨others, hK.owns⟩
      enter := fun hK => hK.same (alike_enterWalk _).tables (alike_enterWalk _).client
      leave := fun hK => hK.same (alike_leaveWalk _).tables (alike_leaveWalk _).client
      moves := fun hK hm => hK.moves hm
      supply := fun {own k} hK => by
        obtain ⟨own', hx, hn⟩ := ih k hK
        exact ⟨own', hx, hn, hn.split.trans hK.split.symm⟩ }
    exact hsustains.perform op h

/-- in every history the words of a tree are well formed, between operations and whenever one of them
asks for a page -/
theorem words_wellFormed (hm : t.Reachable others m) : t.WellFormed others (t.tables m) ∧
    ∀ (noted : σ → List Tables) n, t.Noting noted m n → t.Reachable others n ∧
      ∀ T ∈ noted n.client, T ∈ noted m.client ∨
        T.split = m.splitExecute ∧ t.WellFormed others T := by
  obtain ⟨own, h⟩ := hm.owns
  refine ⟨h.wellFormed, fun noted n hr => ⟨hr.reachable hm, ?_⟩⟩
  have h₀ : t.Noted others noted m.splitExecute (noted m.client) own m := ⟨h, rfl, fun _ => .inl⟩
  obtain ⟨_, _, hn⟩ := hr.keeps h₀
  exact hn.formed

/-- a block of 2 MB is mapped in an empty tree, and the tables are noted -/
theorem words_wellFormed_block : ∃ (t : Tree) (m n : Machine (List Tables)) (T : Tables) (l : Leaf),
    t.Reachable (fun _ => False) m ∧ t.Noting id m n ∧ T ∈ n.client ∧
      t.WellFormed (fun _ => False) T ∧ t.leaf? T.memory ⟨0x1000⟩ = some l ∧
      (l.physAddr ⟨0x1000⟩).bits.toNat = 0x201000 ∧
      (l.physAddr ⟨0x1000⟩).bits.toNat = l.base.bits.toNat + 0x1000 % 2 ^ (12 + l.order) := by
  let block : Mapping := ⟨⟨0⟩, ⟨0x200000⟩, .ofPerms .readWrite⟩
  have hh : (Env.offering (List.range' 2 2) : Env (List Tables)).Honest := Env.honest_behind (by decide)
  obtain ⟨t, m₀, hm₀, hf, hlive, _⟩ := Reachable.exists_empty .stage2 ([] : List Tables)
  obtain ⟨m, hm⟩ : ∃ m : Machine (List Tables), m = { m₀ with client := [] } := ⟨_, rfl⟩
  have hreach : t.Reachable (fun _ => False) m := .elsewhere hm₀ (by rw [hm]; rfl)
  obtain ⟨own, ho⟩ := hreach.owns
  have hr : t.format.refusal? block 9 = none := by
    rw [hf]
    decide
  have hspare : m.Spare (List.range' 2 2) 2 :=
    .behind (fun i hi => (hlive i).mp (by rw [hm] at hi; exact hi)) 2
  obtain ⟨k, _, _, hk, -⟩ := Calm.update_room hh (.offering t _) ho hr (hspare.room.le (by rw [hf]; decide))
  have hafter : (t.perform (.update block 9)).after (.offering (List.range' 2 2)) m = k := by
    unfold perform
    rw [Act.after_map, Act.after_of_ok hk]
  have hrun : t.Noting id m k := hafter ▸ .op _ _ hh fun _ => .elsewhere rfl fun _ => .inl
  have hnoted : t.Noting id m { k with client := t.tables k :: k.client } :=
    hrun.trans (.elsewhere rfl fun T hT => (List.mem_cons.mp hT).symm)
  have hcovered : block.coveredOrder t.format 9 = 9 := by
    rw [hf]
    decide
  rw [hcovered] at hk
  obtain ⟨l, hl, htranslation⟩ := Calm.exists_leaf hh (.offering t _) ho hk (by decide)
    (show block.Covers 9 ⟨0x1000⟩ from ⟨by decide, by decide⟩)
  have hout : (l.physAddr ⟨0x1000⟩).bits.toNat = (block.output ⟨0x1000⟩).bits.toNat :=
    congrArg (fun v => v.1.bits.toNat) htranslation
  obtain ⟨-, hall⟩ := words_wellFormed hreach
  obtain ⟨-, hformed⟩ := hall id _ hnoted
  rcases hformed (t.tables k) List.mem_cons_self with hold | ⟨-, hT⟩
  · rw [hm] at hold
    cases hold
  · obtain ⟨-, hsum, -, -⟩ := hT.translation hl
    exact ⟨t, m, _, t.tables k, l, hreach, hnoted, List.mem_cons_self, hT, hl, hout.trans (by decide), hsum⟩

end Tree

end NestedPaging
