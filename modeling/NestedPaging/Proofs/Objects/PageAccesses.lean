import NestedPaging.Proofs.Tree.Accesses
import Mathlib.Algebra.Notation.Indicator
import Mathlib.Data.Set.Insert

/-!
# Accesses of a holder of pages

Whoever holds the pages `F` may take a page that is free, write to one that it holds, and give it
back. `Machine.Deeds R F m F' n` is a sequence of such accesses; what else they change is said by `R`.

* `Deeds.elsewhere`   pages that others hold stay as they are, and stay with them;
* `Deeds.frame`       whoever holds more pages can do the same;
* `Deeds.ledger`      a page is given back once for each time that it was taken, or is still held;
* `Moves.deeds`       the moves of a processor at work on a tree are such accesses to its pages.
-/

namespace NestedPaging

open PhysAddr (IsPage)

variable {σ : Type}

namespace Machine

/-- one access of somebody who holds the pages `F` -/
inductive Deed (R : Machine σ → Machine σ → Prop) :
    Set Nat → Machine σ → Set Nat → Machine σ → Prop
  | take {F : Set Nat} {m : Machine σ} {q : PhysAddr} {w : Word} : IsPage q → m.isLive q = false →
      Deed R F m (insert q.frame F) (m.take q w)
  | store {F : Set Nat} {m : Machine σ} {a : PhysAddr} {w : Word} : a.frame ∈ F →
      Deed R F m F (m.store a w)
  | giveBack {F : Set Nat} {m : Machine σ} {q : PhysAddr} : q.frame ∈ F →
      Deed R F m (F \ {q.frame}) (m.giveBack q)
  /-- neither memory nor the pages in use change -/
  | aside {F : Set Nat} {m n : Machine σ} : n.memory = m.memory → n.live = m.live →
      (∃ es, m.Logs es n ∧ ∀ e ∈ es, e.Plain) → R m n → Deed R F m F n

inductive Deeds (R : Machine σ → Machine σ → Prop) (F : Set Nat) (m : Machine σ) :
    Set Nat → Machine σ → Prop
  | refl : Deeds R F m F m
  | tail {F' F'' : Set Nat} {k n : Machine σ} : Deeds R F m F' k → Deed R F' k F'' n →
      Deeds R F m F'' n

variable {R : Machine σ → Machine σ → Prop} {F F' F'' K : Set Nat} {m k n : Machine σ} {i : Nat}
  {es fs : List Event}

theorem Deed.deeds (h : Deed R F m F' n) : Deeds R F m F' n := .tail .refl h

theorem Deeds.trans (h : Deeds R F m F' k) (h' : Deeds R F' k F'' n) : Deeds R F m F'' n := by
  induction h' with
  | refl => exact h
  | tail _ hd ih => exact .tail ih hd

theorem Deeds.aside (hm : n.memory = m.memory) (hl : n.live = m.live)
    (he : ∃ es, m.Logs es n ∧ ∀ e ∈ es, e.Plain) (hr : R m n) : Deeds R F m F n :=
  (Deed.aside hm hl he hr).deeds

/-! ## pages of others -/

theorem mem_live_take {q : PhysAddr} {w : Word} : i ∈ (m.take q w).live ↔ i = q.frame ∨ i ∈ m.live := by
  show i ∈ m.live.insert q.frame ↔ _
  rw [Std.HashSet.mem_insert, beq_iff_eq, eq_comm]

theorem mem_live_giveBack {q : PhysAddr} : i ∈ (m.giveBack q).live ↔ i ≠ q.frame ∧ i ∈ m.live := by
  show i ∈ m.live.erase q.frame ↔ _
  rw [Std.HashSet.mem_erase, beq_eq_false_iff_ne, ne_comm]

theorem ne_of_isLive {q : PhysAddr} (hf : m.isLive q = false) (hi : i ∈ m.live) : i ≠ q.frame := by
  rintro rfl
  exact Bool.false_ne_true (hf.symm.trans (show m.isLive q = true from hi))

theorem Deed.live (h : Deed R F m F' n) (hF : ∀ i ∈ F, i ∈ m.live) : ∀ i ∈ F', i ∈ n.live := by
  intro i hi
  cases h with
  | take =>
    rw [mem_live_take]
    exact hi.imp id (hF i)
  | store => exact hF i hi
  | giveBack =>
    rw [mem_live_giveBack]
    exact ⟨hi.2, hF i hi.1⟩
  | aside _ hl _ _ =>
    rw [hl]
    exact hF i hi

theorem Deeds.live (h : Deeds R F m F' n) (hF : ∀ i ∈ F, i ∈ m.live) : ∀ i ∈ F', i ∈ n.live := by
  induction h with
  | refl => exact hF
  | tail _ hd ih => exact hd.live ih

/-- what is held was held, or was free -/
theorem Deed.held (h : Deed R F m F' n) (hi : i ∈ F') : i ∈ F ∨ i ∉ m.live := by
  cases h with
  | take _ hf => exact hi.symm.imp id fun he hl => ne_of_isLive hf hl he
  | giveBack => exact .inl hi.1
  | store => exact .inl hi
  | aside => exact .inl hi

/-- a page that is in use and that is not held -/
def Elsewhere (F : Set Nat) (m : Machine σ) (i : Nat) : Prop := i ∈ m.live ∧ i ∉ F

theorem Deed.elsewhere (h : Deed R F m F' n) (hi : Elsewhere F m i) :
    Elsewhere F' n i ∧ ∀ a : PhysAddr, a.frame = i → n.memory.read a = m.memory.read a := by
  obtain ⟨hl, hF⟩ := hi
  cases h with
  | take _ hf =>
    have hne := ne_of_isLive hf hl
    refine ⟨⟨mem_live_take.mpr (.inr hl), fun hi => hi.elim hne hF⟩, fun a ha => ?_⟩
    exact (m.memory.read_fill ..).trans (if_neg fun e => hne (ha.symm.trans e.symm))
  | @store a w ha =>
    refine ⟨⟨hl, hF⟩, fun b hb => Memory.read_write_other (fun hs => hF ?_) m.memory w⟩
    rw [← hb, ← hs.1]
    exact ha
  | giveBack hq =>
    refine ⟨⟨mem_live_giveBack.mpr ⟨?_, hl⟩, fun hi => hF hi.1⟩, fun _ _ => rfl⟩
    rintro rfl
    exact hF hq
  | aside hm hl' _ _ =>
    refine ⟨⟨?_, hF⟩, fun _ _ => by rw [hm]⟩
    rw [hl']
    exact hl

/-- pages that others hold stay as they are, and stay with them -/
theorem Deeds.elsewhere (h : Deeds R F m F' n) (hi : Elsewhere F m i) :
    Elsewhere F' n i ∧ ∀ a : PhysAddr, a.frame = i → n.memory.read a = m.memory.read a := by
  induction h with
  | refl => exact ⟨hi, fun _ _ => rfl⟩
  | tail _ hd ih =>
    obtain ⟨hk, hread⟩ := ih
    obtain ⟨hn, hread'⟩ := hd.elsewhere hk
    exact ⟨hn, fun a ha => (hread' a ha).trans (hread a ha)⟩

theorem Deed.frame (h : Deed R F m F' n) (hK : ∀ i ∈ K, Elsewhere F m i) :
    Deed R (F ∪ K) m (F' ∪ K) n := by
  cases h with
  | take hq hf =>
    rw [Set.insert_union]
    exact .take hq hf
  | store ha => exact .store (.inl ha)
  | @giveBack q hq =>
    have hout : q.frame ∉ K := fun hin => (hK _ hin).2 hq
    rw [← Set.sdiff_singleton_eq_self hout, ← Set.union_sdiff_distrib, Set.sdiff_singleton_eq_self hout]
    exact .giveBack (.inl hq)
  | aside hm hl he hr => exact .aside hm hl he hr

/-- whoever holds more pages can do the same -/
theorem Deeds.frame (h : Deeds R F m F' n) (hK : ∀ i ∈ K, Elsewhere F m i) :
    Deeds R (F ∪ K) m (F' ∪ K) n := by
  induction h with
  | refl => exact .refl
  | tail h hd ih => exact .tail ih (hd.frame fun i hi => (h.elsewhere (hK i hi)).1)

/-- pages that are held are given back, each once -/
theorem Deeds.giveBackAll (m : Machine σ) {ps : List PhysAddr} (hn : (ps.map Addr.frame).Nodup)
    (hF : ∀ p ∈ ps, p.frame ∈ F) :
    Deeds R F m (F \ {i | ∃ p ∈ ps, p.frame = i}) (m.giveBackAll ps) := by
  induction ps generalizing F m with
  | nil =>
    have he : F \ {i | ∃ p ∈ ([] : List PhysAddr), p.frame = i} = F := by
      ext i
      simp
    rw [he]
    exact .refl
  | cons p ps ih =>
    rw [List.map_cons, List.nodup_cons] at hn
    have he : F \ {i | ∃ q ∈ p :: ps, q.frame = i}
        = (F \ {p.frame}) \ {i | ∃ q ∈ ps, q.frame = i} := by
      ext i
      simp only [Set.mem_sdiff, Set.mem_ofPred_eq, Set.mem_singleton_iff, List.exists_mem_cons_iff,
        not_or, eq_comm (a := p.frame), and_assoc]
    rw [he]
    refine (Deed.giveBack (hF p List.mem_cons_self)).deeds.trans (ih (m.giveBack p) hn.2 ?_)
    intro q hq
    refine ⟨hF q (List.mem_cons_of_mem p hq), fun e => hn.1 ?_⟩
    rw [← Set.mem_singleton_iff.mp e]
    exact List.mem_map_of_mem hq

end Machine

/-! ## how often a page was taken and given back -/

/-- how often page number `i` was taken -/
def takes (i : Nat) (es : List Event) : Nat :=
  es.countP fun
    | .allocated p _ => p.frame == i
    | _ => false

/-- how often page number `i` was given back -/
def returns (i : Nat) (es : List Event) : Nat :=
  es.countP fun
    | .freed p => p.frame == i
    | _ => false

/-- from the pages `F` to the pages `F'`, the events say what was taken and given back -/
def Ledger (F : Set Nat) (es : List Event) (F' : Set Nat) : Prop :=
  ∀ i, F.indicator 1 i + takes i es = F'.indicator 1 i + returns i es

namespace Ledger
variable {F F' F'' : Set Nat} {es fs : List Event}

theorem append (h : Ledger F es F') (h' : Ledger F' fs F'') : Ledger F (es ++ fs) F'' := by
  intro i
  have hi := h i
  have hi' := h' i
  have ht : takes i (es ++ fs) = takes i es + takes i fs := List.countP_append
  have hr : returns i (es ++ fs) = returns i es + returns i fs := List.countP_append
  omega

theorem plain (h : ∀ e ∈ es, e.Plain) : Ledger F es F := by
  intro i
  have ht : takes i es = 0 := List.countP_eq_zero.mpr fun e he => by
    have hp := h e he
    cases e <;> simp_all [Event.Plain]
  have hr : returns i es = 0 := List.countP_eq_zero.mpr fun e he => by
    have hp := h e he
    cases e <;> simp_all [Event.Plain]
  omega

theorem take {q : PhysAddr} (h : q.frame ∉ F) (w : Word) :
    Ledger F [.allocated q w] (insert q.frame F) := by
  intro i
  by_cases hi : q.frame = i
  · subst hi
    simp [takes, returns, h]
  · have hi' : i ∈ insert q.frame F ↔ i ∈ F := by simp [Ne.symm hi]
    by_cases hF : i ∈ F <;> simp [takes, returns, hi, hi', hF, Set.indicator]

theorem giveBack {q : PhysAddr} (h : q.frame ∈ F) : Ledger F [.freed q] (F \ {q.frame}) := by
  intro i
  by_cases hi : q.frame = i
  · subst hi
    simp [takes, returns, h]
  · by_cases hF : i ∈ F <;> simp [takes, returns, hi, hF, Set.indicator, eq_comm (a := i)]

/-- who held nothing gave back at most what was taken, and holds a page once at most -/
theorem bounds (h : Ledger ∅ es F) (i : Nat) :
    returns i es ≤ takes i es ∧ takes i es ≤ returns i es + 1 := by
  have hi := h i
  have hle : F.indicator (1 : Nat → Nat) i ≤ 1 := by
    unfold Set.indicator
    split
    · exact Nat.le_refl 1
    · exact Nat.zero_le 1
  rw [Set.indicator_empty'] at hi
  simp only [Pi.zero_apply] at hi
  omega

end Ledger

namespace Machine
variable {R : Machine σ → Machine σ → Prop} {F F' F'' K : Set Nat} {m k n : Machine σ}

theorem Deed.ledger (h : Deed R F m F' n) (hF : ∀ i ∈ F, i ∈ m.live) :
    ∃ es, m.Logs es n ∧ Ledger F es F' ∧ ∀ gs hs, es = gs ++ hs → ∃ G, Ledger F gs G := by
  have hone : ∀ {e : Event}, Ledger F [e] F' →
      Ledger F [e] F' ∧ ∀ gs hs, [e] = gs ++ hs → ∃ G, Ledger F gs G := by
    intro e he
    refine ⟨he, fun gs hs hes => ?_⟩
    cases gs with
    | nil => exact ⟨F, .plain nofun⟩
    | cons g gs =>
      obtain ⟨rfl, hnil⟩ := List.cons.inj hes
      obtain ⟨rfl, _⟩ := List.append_eq_nil_iff.mp hnil.symm
      exact ⟨F', he⟩
  cases h with
  | @take q w _ hf =>
    exact ⟨_, .push rfl, hone (.take (fun hq => ne_of_isLive hf (hF _ hq) rfl) w)⟩
  | store => exact ⟨_, .push rfl, hone fun _ => rfl⟩
  | giveBack hq => exact ⟨_, .push rfl, hone (.giveBack hq)⟩
  | aside _ _ he _ =>
    obtain ⟨es, hl, hp⟩ := he
    refine ⟨es, hl, .plain hp, fun gs hs hes => ⟨F, .plain fun e he => hp e ?_⟩⟩
    rw [hes]
    exact List.mem_append_left _ he

/-- at each moment a page was given back as often as it was taken, up to the one time it is held -/
theorem Deeds.ledger (h : Deeds R F m F' n) (hF : ∀ i ∈ F, i ∈ m.live) :
    ∃ es, m.Logs es n ∧ Ledger F es F' ∧ ∀ gs hs, es = gs ++ hs → ∃ G, Ledger F gs G := by
  induction h with
  | refl =>
    refine ⟨[], .refl rfl, .plain nofun, fun gs hs hes => ⟨F, ?_⟩⟩
    rw [(List.append_eq_nil_iff.mp hes.symm).1]
    exact .plain nofun
  | tail h hd ih =>
    obtain ⟨es, hl, hes, hpre⟩ := ih
    obtain ⟨fs, hl', hfs, hpre'⟩ := hd.ledger (h.live hF)
    refine ⟨es ++ fs, hl.trans hl', hes.append hfs, fun gs hs he => ?_⟩
    rcases List.append_eq_append_iff.mp he with ⟨as, rfl, hfs'⟩ | ⟨as, hes', _⟩
    · obtain ⟨G, hG⟩ := hpre' as hs hfs'
      exact ⟨G, hes.append hG⟩
    · exact hpre gs as hes'

end Machine

/-! ## the moves of a processor at work on a tree -/

/-- the numbers of the pages of a layout -/
def Layout.frames (own : Layout) : Set Nat := {i | ∃ p r, own p = some r ∧ p.frame = i}

theorem Layout.frames_add {own : Layout} {q : PhysAddr} {r : Region} (h : own q = none) :
    (own.add q r).frames = insert q.frame own.frames := by
  ext i
  constructor
  · rintro ⟨p, r', hp, rfl⟩
    obtain ⟨rfl, -⟩ | ⟨-, hp⟩ := Layout.add_eq_some.mp hp
    · exact .inl rfl
    · exact .inr ⟨p, r', hp, rfl⟩
  · rintro (rfl | ⟨p, r', hp, rfl⟩)
    · exact ⟨q, r, own.add_self q r, rfl⟩
    · exact ⟨p, r', Layout.extends_add r h p r' hp, rfl⟩

namespace Tree
variable {t : Tree} {others : Nat → Prop} {own own' : Layout} {st st' : Stage} {m n : Machine σ}
  {R : Machine σ → Machine σ → Prop}

/-- the pages that a processor at work on the tree may write to -/
def Stage.held (own : Layout) : Stage → Set Nat
  | .filling q | .ready q => insert q.frame own.frames
  | _ => own.frames

theorem Move.deeds (h : t.Move own st m own' st' n) (ho : t.OwnsAt others own (t.tables m) st)
    (hR : ∀ {m n : Machine σ}, t.Local m n → R m n) : Machine.Deeds R (st.held own) m (st'.held own') n := by
  have hslot : ∀ {p r i} {w : Word}, own p = some r → IsPage p → i < 512 →
      Machine.Deed R own.frames m own.frames (m.store (p.add (i * 8).toUInt64) w) := by
    intro p r i w hp hq hi
    refine .store ?_
    rw [frame_entry hq hi]
    exact ⟨p, r, hp, rfl⟩
  have hnote : ∀ {F es}, (∀ e ∈ es, Event.Plain e) → Machine.Deeds R F m F (m.noteAll es) :=
    fun hes => .aside rfl rfl ⟨_, m.logs_noteAll _, hes⟩ (hR (.of_trees rfl rfl rfl rfl rfl))
  cases h with
  | exhausted =>
    refine .aside rfl rfl ⟨_, .note m _, fun e he => ?_⟩ (hR (.of_trees rfl rfl rfl rfl rfl))
    rw [List.mem_singleton.mp he]
    trivial
  | take hq hf => exact (Machine.Deed.take hq hf).deeds
  | @fill _ q i w hi =>
    refine (Machine.Deed.store ?_).deeds
    rw [frame_entry ho.1 hi]
    exact .inl rfl
  | «show» => exact hnote (t.plain_cleaning _ _ _)
  | @giveBack _ q =>
    have hout : q.frame ∉ own.frames := by
      rintro ⟨p, r, hp, e⟩
      exact ho.2.2.apart hp (.inr e)
    have hd : Machine.Deed R (insert q.frame own.frames) m (insert q.frame own.frames \ {q.frame})
      (m.giveBack q) := .giveBack (.inl rfl)
    rw [Set.insert_sdiff_self_of_notMem hout] at hd
    exact hd.deeds
  | @publish _ p q k x i hp hi hold hbare hmaps =>
    have hnone : own q = none := by
      cases hq : own q with
      | none => rfl
      | some r => exact absurd rfl (ho.2.2.ne_taken hq)
    show Machine.Deeds R (insert q.frame own.frames) m (own.add q _).frames _
    rw [Layout.frames_add hnone]
    refine (Machine.Deed.store (.inr ?_)).deeds
    rw [frame_entry (ho.2.2.isPage hp) hi]
    exact ⟨p, _, hp, rfl⟩
  | begin _ => exact .refl
  | @exchange _ p l x i k w hp hi hw =>
    have ho' : t.Owns others own (t.tables m) := ho
    have hstore := (hslot (w := w) hp (ho'.isPage hp) hi).deeds
    show Machine.Deeds R own.frames m own.frames _
    unfold Tree.exchange
    split
    · refine hstore.trans (.aside rfl rfl ⟨_, .note _ _, fun e he => ?_⟩ (hR (t.local_retire _ _)))
      rw [List.mem_singleton.mp he]
      trivial
    · exact hstore
  | finish => exact hnote (t.plain_cleaning _ _ _)

theorem Moves.deeds (h : t.Moves own st m own' st' n) (ho : t.OwnsAt others own (t.tables m) st)
    (hR : ∀ {m n : Machine σ}, t.Local m n → R m n) :
    Machine.Deeds R (st.held own) m (st'.held own') n := by
  induction h with
  | refl => exact .refl
  | tail h hm ih => exact ih.trans (hm.deeds (h.owns ho).2 hR)

/-! ## the pages of a tree -/

/-- the numbers of the pages below detached tables -/
def retiredFrames (t : Tree) (T : Tables) : Set Nat := {i | ∃ p ∈ t.retiredPages T, p.frame = i}

namespace Owns
variable {T : Tables} {F : Set Nat} {i : Nat}

/-- pages of others are held elsewhere -/
theorem elsewhere (h : t.Owns others own (t.tables m)) (hi : others i) :
    Machine.Elsewhere own.frames m i := by
  refine ⟨(h.inUse i).mpr (.inl hi), ?_⟩
  rintro ⟨p, r, hp, rfl⟩
  exact h.apart hp hi

theorem spares (h : t.Owns others own (t.tables m)) (hd : Machine.Deeds R own.frames m F n) :
    (t.tables m).Spares others (t.tables n) := by
  intro q i hq hi ho
  exact (hd.elsewhere (h.elsewhere ho)).2 _ (frame_entry hq hi)

theorem frames_pages (h : t.Owns others own T) : {i | ∃ p ∈ t.pages T, p.frame = i} = own.frames := by
  ext i
  constructor
  · rintro ⟨p, hp, rfl⟩
    obtain ⟨r, hr⟩ := h.mem_pages_iff.mp hp
    exact ⟨p, r, hr, rfl⟩
  · rintro ⟨p, r, hp, rfl⟩
    exact ⟨p, h.mem_pages_iff.mpr ⟨r, hp⟩, rfl⟩

theorem nodup_frames (h : t.Owns others own T) : ((t.pages T).map Addr.frame).Nodup := by
  refine h.nodup_pages.map_on fun p hp q hq e => ?_
  obtain ⟨r, hr⟩ := h.mem_pages_iff.mp hp
  obtain ⟨r', hr'⟩ := h.mem_pages_iff.mp hq
  exact h.eq_of_frame hr hr' e

theorem frames_without (h : t.Owns others own T) :
    (own.without (t.retiredPages T)).frames ∪ t.retiredFrames T = own.frames := by
  ext i
  constructor
  · rintro (⟨p, r, hp, rfl⟩ | ⟨p, hp, rfl⟩)
    · exact ⟨p, r, (Layout.without_eq_some.mp hp).2, rfl⟩
    · obtain ⟨r, hr⟩ := h.own_of_mem_retiredPages hp
      exact ⟨p, r, hr, rfl⟩
  · rintro ⟨p, r, hp, rfl⟩
    by_cases hin : p ∈ t.retiredPages T
    · exact .inr ⟨p, hin, rfl⟩
    · exact .inl ⟨p, r, Layout.without_eq_some.mpr ⟨hin, hp⟩, rfl⟩

theorem frames_sdiff_retired (h : t.Owns others own T) :
    own.frames \ t.retiredFrames T = (own.without (t.retiredPages T)).frames := by
  rw [← h.frames_without]
  refine Set.union_sdiff_cancel_right fun i hi => ?_
  obtain ⟨⟨p, r, hp, rfl⟩, q, hq, he⟩ := hi
  obtain ⟨hout, hp⟩ := Layout.without_eq_some.mp hp
  obtain ⟨r', hr'⟩ := h.own_of_mem_retiredPages hq
  exact hout (h.eq_of_frame hr' hp he ▸ hq)

theorem nodup_retired (h : t.Owns others own T) : ((t.retiredPages T).map Addr.frame).Nodup := by
  have hn := h.nodup_frames
  rw [t.pages_eq, List.map_append] at hn
  exact (List.nodup_append'.mp hn).1

/-- what is given back of the pages that are held is what lies below detached tables -/
theorem deeds_giveBackAll (h : t.Owns others own T) (m : Machine σ) :
    Machine.Deeds R own.frames m (own.without (t.retiredPages T)).frames
      (m.giveBackAll (t.retiredPages T)) := by
  rw [← h.frames_sdiff_retired]
  refine .giveBackAll m h.nodup_retired fun p hp => ?_
  obtain ⟨r, hr⟩ := h.own_of_mem_retiredPages hp
  exact ⟨p, r, hr, rfl⟩

end Owns

/-- a new tree holds the page of its root -/
theorem deeds_create {f : Format} {cleaner : Option Cleaner} {env : Env σ} (hh : env.Honest)
    (h : create f cleaner env m = .ok t n)
    (hR : ∀ (k : Machine σ) es, t.cell = k.trees.next →
      R k { k.noteAll es with trees := (k.trees.fresh {}).2 }) :
    ∃ own, t.Owns (fun i => i ∈ (env.supply m).1.live) own (t.tables n) ∧ own.frames = {t.root.frame} ∧
      Machine.Deeds R ∅ (env.supply m).1 own.frames n := by
  have ho : t.Owns (fun i => i ∈ (env.supply m).1.live) t.rootOnly (t.tables n) := .create hh (fun _ => Iff.rfl) h
  obtain ⟨k, hk, _, hcell, rfl⟩ := create_eq h
  obtain ⟨hq, hf⟩ := hh m t.root (by rw [hk])
  rw [hk] at hf ho ⊢
  have hframes : t.rootOnly.frames = {t.root.frame} := by
    ext i
    constructor
    · rintro ⟨p, r, hp, rfl⟩
      rw [(eq_of_rootOnly hp).1]
      rfl
    · rintro rfl
      exact ⟨_, _, ho.root, rfl⟩
  refine ⟨t.rootOnly, ho, hframes, ?_⟩
  have htake : Machine.Deed R ∅ k (insert t.root.frame ∅) (k.take t.root 0) := .take hq hf
  rw [insert_empty_eq] at htake
  rw [hframes]
  exact htake.deeds.trans (.aside rfl rfl ⟨_, (k.take t.root 0).logs_noteAll _,
    t.plain_cleaning t.root 4096 _⟩ (hR (k.take t.root 0) _ hcell))

end Tree

end NestedPaging
