import NestedPaging.Proofs.Tree.Offering

/-!
# Walks among other processors

A walk looks at one entry after the other, and other processors may run whenever it asks for a page.
`Tree.Rely` says what they leave true: an invariant `I` of layout and machine, and, for the tables
that the walk holds a pointer into, that they stay on the path of the address unless `E` excuses
their level. From that, `reach_yields` says where a walk ends:

* at an entry of a table with the block of the address, on its path or excused;
* at an absent entry above, if it stops at gaps;
* for lack of memory;
* never, and then only because others get in the way without end.

With `E` empty nothing gets in the way; with `E` everything, a walk may end in a table that
somebody detached meanwhile.
-/

namespace NestedPaging

open PhysAddr (IsPage)

variable {σ : Type}

/-- an allocator that offers only whole pages below `2 ^ 48` that are not in use -/
def Env.Honest (env : Env σ) : Prop :=
  ∀ m q, (env.supply m).2 = some q → IsPage q ∧ (env.supply m).1.isLive q = false

/-- whoever changes the memory while a page is asked for uses up some of the rank -/
def Env.Paced (env : Env σ) : Prop :=
  ∀ m, (env.supply m).1.memory = m.memory ∨ env.rank (env.supply m).1.client < env.rank m.client

/-- what other processors leave true for a walk to `a` -/
structure Tree.Rely (t : Tree) (others : Nat → Prop) (env : Env σ) (a : GuestAddr)
    (I : Layout → Machine σ → Prop) (E : Machine σ → Nat → Prop) : Prop where
  honest : env.Honest
  owns : ∀ {own m}, I own m → t.Owns others own (t.tables m)
  quiet : ∀ {own own' m n}, I own m → n.client = m.client →
    t.Quiet others own own' (t.tables m) (t.tables n) →
    (t.tables m).Spares others (t.tables n) → I own' n ∧ ∀ l, E m l → E n l
  supply : ∀ {own m}, I own m → ∃ own', own'.Extends own ∧ I own' (env.supply m).1 ∧
    (env.supply m).1.splitExecute = m.splitExecute ∧ (∀ l, E m l → E (env.supply m).1 l) ∧
    ∀ r ∈ t.path m.memory a, r ∈ t.path (env.supply m).1.memory a ∨ E (env.supply m).1 r.level
  lower : ∀ {m l}, E m (l + 1) → E m l

/-- the table `p` at `level` has the block of `a`, and is on its path or excused -/
structure Tree.Here (t : Tree) (E : Machine σ → Nat → Prop) (a : GuestAddr) (own : Layout)
    (m : Machine σ) (level : Nat) (p : PhysAddr) : Prop where
  place : own p = some ⟨level, a.block (level + 1)⟩
  path : ⟨p, level⟩ ∈ t.path m.memory a ∨ E m level

/-- how an action ends: well, for lack of memory, or never -/
def Yields {α : Type} (env : Env σ) (I : Layout → Machine σ → Prop) (own : Layout)
    (Q : α → Layout → Machine σ → Prop) :
    EStateM.Result (Stop TableError) (Machine σ) α → Prop
  | .ok v n => ∃ own', own'.Extends own ∧ Q v own' n
  | .error (.failed e) n => e = .insufficientMemory ∧ ∃ own', own'.Extends own ∧ I own' n
  | .error .stuck n => ¬ env.Paced ∧ ∃ own', own'.Extends own ∧ I own' n
  | .error .refused _ => False

namespace Yields
variable {α β : Type} {env : Env σ} {I : Layout → Machine σ → Prop} {own own' : Layout}
  {Q : α → Layout → Machine σ → Prop} {R : β → Layout → Machine σ → Prop} {m : Machine σ}

theorem weaken {r : EStateM.Result (Stop TableError) (Machine σ) α} (ho : own'.Extends own)
    (h : Yields env I own' Q r) : Yields env I own Q r := by
  match r, h with
  | .ok v n, ⟨own'', hx, h⟩ => exact ⟨own'', hx.trans ho, h⟩
  | .error (.failed e) n, ⟨he, own'', hx, h⟩ => exact ⟨he, own'', hx.trans ho, h⟩
  | .error .stuck n, ⟨he, own'', hx, h⟩ => exact ⟨he, own'', hx.trans ho, h⟩

theorem mono {r : EStateM.Result (Stop TableError) (Machine σ) α} {I' : Layout → Machine σ → Prop}
    {Q' : α → Layout → Machine σ → Prop} (h : Yields env I own Q r) (hI : ∀ own n, I own n → I' own n)
    (hQ : ∀ v own n, Q v own n → Q' v own n) : Yields env I' own Q' r := by
  match r, h with
  | .ok v n, ⟨own', hx, hv⟩ => exact ⟨own', hx, hQ v own' n hv⟩
  | .error (.failed e) n, ⟨he, own', hx, hn⟩ => exact ⟨he, own', hx, hI own' n hn⟩
  | .error .stuck n, ⟨he, own', hx, hn⟩ => exact ⟨he, own', hx, hI own' n hn⟩

theorem bind {x : Act σ TableError α} {f : α → Act σ TableError β}
    (h : Yields env I own Q (x env m))
    (hf : ∀ v own' n, Q v own' n → Yields env I own' R (f v env n)) :
    Yields env I own R ((x >>= f) env m) := by
  rw [Act.bind_apply]
  cases hx : x env m with
  | ok v n =>
    rw [hx] at h
    obtain ⟨own', ho, hQ⟩ := h
    exact (hf v own' n hQ).weaken ho
  | error e n =>
    rw [hx] at h
    cases e with
    | failed e => exact h
    | refused => exact h
    | stuck => exact h

end Yields

namespace Tree.Rely
variable {t : Tree} {others : Nat → Prop} {env : Env σ} {a : GuestAddr}
  {I : Layout → Machine σ → Prop} {E : Machine σ → Nat → Prop} {own own' : Layout}
  {m n : Machine σ} {p : PhysAddr} {l : Nat} {gap : AtGap}

section
variable (R : t.Rely others env a I E)
include R

theorem alike (hI : I own m) (h : t.Alike m n) : I own n ∧ ∀ l, E m l → E n l := by
  apply R.quiet hI h.client
  · rw [h.tables]
    exact .refl (R.owns hI)
  · rw [h.tables]
    exact .refl ..

theorem here_quiet (ha : t.format.inRange a = true) (hI : I own m) (hc : n.client = m.client)
    (hq : t.Quiet others own own' (t.tables m) (t.tables n))
    (hs : (t.tables m).Spares others (t.tables n)) (h : t.Here E a own m l p) :
    t.Here E a own' n l p := by
  refine ⟨hq.grows _ _ h.place, ?_⟩
  rcases h.path with hp | he
  · exact .inl (hq.path ha hp)
  · exact .inr ((R.quiet hI hc hq hs).2 _ he)

/-- one offer of a table that maps what the entry of the path maps -/
theorem offerTable_yields (ha : t.format.inRange a = true) (hI : I own m)
    (hh : t.Here E a own m (l + 1) p) {old : Word} {entries : Bool → List Word}
    (hold : m.memory.entry p (tableIndex a (l + 1)) = old)
    (ht : t.format.isTable old (l + 1) = false)
    (hl : ∀ block, MapsLike t.format m.splitExecute l block old (entries m.splitExecute))
    (hlen : (entries m.splitExecute).length ≤ 512) :
    Yields env I own (fun _ own' n => I own' n ∧ t.Here E a own' n (l + 1) p ∧ (env.Paced →
        t.format.isTable (n.memory.entry p (tableIndex a (l + 1))) (l + 1) = true ∨
        env.rank n.client < env.rank m.client))
      (t.offerTable (.through p a (l + 1)) old entries env m) := by
  obtain ⟨own₁, hx, hI₁, hsp, hE, hpath⟩ := R.supply hI
  cases hs : env.supply m with
  | mk k offer =>
    rw [hs] at hI₁ hsp hE hpath
    cases offer with
    | none =>
      rw [offerTable_none hs]
      exact ⟨rfl, own₁, hx, (R.alike hI₁ (alike_note k _)).1⟩
    | some q =>
      obtain ⟨hq, hf⟩ := R.honest m q (by rw [hs])
      rw [hs] at hf
      have hh₁ : t.Here E a own₁ k (l + 1) p := by
        refine ⟨hx _ _ hh.place, ?_⟩
        rcases hh.path with hp | he
        · exact hpath _ hp
        · exact .inr (hE _ he)
      obtain ⟨k', own₂, hrun, hc, hquiet, hsp', hwon⟩ := offerTable_quiet (s := .through p a (l + 1))
        entries hs (R.owns hI₁) hq hf hh₁.place (tableIndex_lt a _) ht (by rw [hsp]; exact hl _)
        (by rw [hsp]; exact hlen)
      rw [hrun]
      refine ⟨own₂, hquiet.grows.trans hx, (R.quiet hI₁ hc hquiet hsp').1,
        R.here_quiet ha hI₁ hc hquiet hsp' hh₁, fun hpaced => ?_⟩
      have hp := hpaced m
      rw [hs] at hp
      rcases hp with hm | hr
      · exact .inl (hwon (by rw [hm]; exact hold))
      · exact .inr (by rw [hc]; exact hr)

end

/-! ## one table down -/

section
variable (t) (env) (gap) (m) {s : Slot} {w : Word} (tries : Nat)

theorem childWithin_zero : t.childWithin s gap 0 env m = .error .stuck m := rfl

theorem childWithin_succ (h : m.memory.read s.address = w) :
    t.childWithin s gap (tries + 1) env m =
    if t.format.isTable w s.level then .ok (some (entryAddress w)) m
    else if t.format.isPresent w then
      (do t.offerTable s w fun split => t.format.splitEntries split s.level w
          t.childWithin s gap tries : Act σ TableError _) env m
    else match gap with
      | .stop => .ok none m
      | .grow => (do t.offerTable s 0 fun _ => []
                     t.childWithin s gap tries : Act σ TableError _) env m := by
  subst h
  simp only [childWithin, Act.bind_apply, Act.load_apply]
  by_cases h1 : t.format.isTable (m.memory.read s.address) s.level = true
  · simp only [h1, if_true, Act.pure_apply]
  · by_cases h2 : t.format.isPresent (m.memory.read s.address) = true
    · simp only [h1, h2, if_true, if_false, Bool.false_eq_true, splitLeaf_eq, Act.bind_apply]
    · cases gap
      · simp only [h1, h2, if_false, Bool.false_eq_true, Act.pure_apply]
      · simp only [h1, h2, if_false, Bool.false_eq_true, fillGap_eq, Act.bind_apply]

end

/-- a look at an entry that is no table stops there, or offers a table that maps what the entry maps -/
theorem childWithin_bare (h : t.Owns others own (t.tables m)) {x : Nat}
    (hp : own p = some ⟨l + 1, x⟩) {raw : Word}
    (hraw : m.memory.entry p (tableIndex a (l + 1)) = raw)
    (ht : t.format.isTable raw (l + 1) = false) (env : Env σ) (gap : AtGap) (tries : Nat) :
    (gap = .stop ∧ raw = 0 ∧
      t.childWithin (.through p a (l + 1)) gap (tries + 1) env m = .ok none m) ∨
    ∃ entries : Bool → List Word,
      (∀ block, MapsLike t.format m.splitExecute l block raw (entries m.splitExecute)) ∧
      (entries m.splitExecute).length ≤ 512 ∧
      t.childWithin (.through p a (l + 1)) gap (tries + 1) env m =
        (do t.offerTable (.through p a (l + 1)) raw entries
            t.childWithin (.through p a (l + 1)) gap tries : Act σ TableError _) env m := by
  have hbare : t.format.Bare m.splitExecute (l + 1) raw := by
    have he := h.entry hp (tableIndex_lt a (l + 1))
    rw [show (t.tables m).memory.entry p _ = raw from hraw] at he
    exact he.bare_of_not_table h.isPage ht
  have hlook := childWithin_succ t env m gap (s := .through p a (l + 1)) tries hraw
  rw [show t.format.isTable raw (Slot.through p a (l + 1)).level = false from ht,
    if_neg Bool.false_ne_true] at hlook
  by_cases hpres : t.format.isPresent raw = true
  · rw [if_pos hpres] at hlook
    refine .inr ⟨fun split => t.format.splitEntries split (l + 1) raw,
      fun block => t.format.mapsLike_split hbare hpres block, ?_, hlook⟩
    show (t.format.splitEntries m.splitExecute (l + 1) raw).length ≤ 512
    rw [Format.splitEntries, List.length_map, List.length_range]
  · rw [if_neg hpres] at hlook
    rw [Bool.not_eq_true] at hpres
    obtain rfl := hbare.eq_zero hpres
    cases gap with
    | stop => exact .inl ⟨rfl, rfl, hlook⟩
    | grow =>
      exact .inr ⟨fun _ => [], fun block => t.format.mapsLike_gap _ l block, Nat.zero_le 512, hlook⟩

/-! ## where the tables are in place -/

section
variable (t : Tree) (env : Env σ) (gap : AtGap)

/-- a look that finds a table ends there -/
theorem childWithin_of_table {w : Word} (h : m.memory.entry p (tableIndex a (l + 1)) = w)
    (ht : t.format.isTable w (l + 1) = true) (tries : Nat) :
    t.childWithin (.through p a (l + 1)) gap (tries + 1) env m = .ok (some (entryAddress w)) m := by
  refine (childWithin_succ t env m gap (s := .through p a (l + 1)) tries h).trans ?_
  exact if_pos ht

theorem child_of_table {w : Word} (h : m.memory.entry p (tableIndex a (l + 1)) = w)
    (ht : t.format.isTable w (l + 1) = true) :
    t.child (.through p a (l + 1)) gap env m = .ok (some (entryAddress w)) m :=
  childWithin_of_table t env gap h ht _

omit gap in
theorem child_of_gap (h : m.memory.entry p (tableIndex a (l + 1)) = 0) :
    t.child (.through p a (l + 1)) .stop env m = .ok none m := by
  refine (childWithin_succ t env m .stop (s := .through p a (l + 1)) _ h).trans ?_
  rw [t.format.isTable_zero, t.format.isPresent_zero, if_neg Bool.false_ne_true, if_neg Bool.false_ne_true]

/-- a walk goes on from a table in place -/
theorem descend_from {target depth d : Nat} {c : PhysAddr}
    (h : ⟨c, target + d⟩ ∈ t.format.path m.memory a (target + depth) p) :
    t.descend a target gap depth p env m = t.descend a target gap d c env m := by
  induction depth generalizing p with
  | zero =>
    have hle : target + d ≤ target := t.format.level_le_of_mem_path h
    obtain rfl : d = 0 := by omega
    rw [t.format.eq_head_of_mem_path h]
  | succ depth ih =>
    rcases t.format.mem_path_succ.mp h with e | ⟨ht, h⟩
    · obtain ⟨rfl, hlevel⟩ := TableRef.mk.inj e
      obtain rfl : d = depth + 1 := Nat.add_left_cancel hlevel
      rfl
    · refine Eq.trans ?_ (ih h)
      rw [descend, Act.bind_apply, child_of_table (l := target + depth) t env gap rfl ht]
      rfl

theorem reach_from {target d : Nat} {c : PhysAddr} (h : ⟨c, target + d⟩ ∈ t.path m.memory a) :
    t.reach a target gap env m = t.descend a target gap d c env m := by
  have hle : target + d ≤ t.format.rootLevel := t.format.level_le_of_mem_path h
  apply descend_from
  rw [Nat.add_sub_cancel' (Nat.le_trans (Nat.le_add_right ..) hle)]
  exact h

/-- a walk to a table in place takes no page and changes nothing -/
theorem reach_of_mem_path {target : Nat} {c : PhysAddr} (h : ⟨c, target⟩ ∈ t.path m.memory a) :
    t.reach a target gap env m = .ok (some (.through c a target)) m := reach_from t env gap (d := 0) h

/-- a walk that stops at an absent entry above its target neither -/
theorem reach_of_gap {target level : Nat} {c : PhysAddr} (hlt : target < level)
    (h : ⟨c, level⟩ ∈ t.path m.memory a) (h0 : m.memory.entry c (tableIndex a level) = 0) :
    t.reach a target .stop env m = .ok none m := by
  obtain ⟨d, rfl⟩ := Nat.exists_eq_add_of_lt hlt
  rw [Nat.add_assoc] at h
  rw [reach_from t env .stop h]
  unfold descend
  rw [Act.bind_apply, child_of_gap (l := target + d) t env h0]
  rfl

end

/-- a walk to the level below the root looks at one entry -/
theorem reach_below_root (t : Tree) (env : Env σ) (a : GuestAddr) (target : Nat) (gap : AtGap)
    (m : Machine σ) (ht : t.format.rootLevel = target + 1) :
    t.reach a target gap env m = ((fun c => c.map fun p => Slot.through p a target)
      <$> t.child (.through t.root a (target + 1)) gap) env m := by
  unfold reach
  rw [ht, Nat.add_sub_cancel_left, Act.map_apply]
  refine (Act.bind_apply env m (t.child (.through t.root a (target + 1)) gap) _).trans ?_
  cases t.child (.through t.root a (target + 1)) gap env m with
  | ok c n =>
    cases c with
    | some c => rfl
    | none => rfl
  | error e n => rfl

/-- where a look for the table below `p` ends -/
def FoundChild (t : Tree) (I : Layout → Machine σ → Prop) (E : Machine σ → Nat → Prop)
    (a : GuestAddr) (gap : AtGap) (l : Nat) (p : PhysAddr) (v : Option PhysAddr) (own : Layout)
    (n : Machine σ) : Prop :=
  I own n ∧ match v with
  | some c => t.Here E a own n l c
  | none => gap = .stop ∧ t.Here E a own n (l + 1) p ∧
      n.memory.entry p (tableIndex a (l + 1)) = 0

/-- enough tries are left: two, after those that others may spoil -/
def Enough (t : Tree) (env : Env σ) (a : GuestAddr) (l : Nat) (p : PhysAddr) (m : Machine σ)
    (tries : Nat) : Prop :=
  env.rank m.client + 2 ≤ tries ∨
    1 ≤ tries ∧ t.format.isTable (m.memory.entry p (tableIndex a (l + 1))) (l + 1) = true

section
variable (R : t.Rely others env a I E)
include R

theorem here_child (hI : I own m) (hh : t.Here E a own m (l + 1) p)
    (ht : t.format.isTable (m.memory.entry p (tableIndex a (l + 1))) (l + 1) = true) :
    t.Here E a own m l (entryAddress (m.memory.entry p (tableIndex a (l + 1)))) := by
  have hown := R.owns hI
  obtain ⟨k, hk, hc⟩ := hown.child hh.place (tableIndex_lt a _) ht
  obtain rfl : l = k := Nat.succ.inj hk
  constructor
  · rw [block_eq_index a (show l + 1 ≤ 4 from hown.level_le hh.place)]
    exact hc
  · rcases hh.path with hp | he
    · exact .inl (t.child_mem_path hp ht)
    · exact .inr (R.lower he)

theorem childWithin_yields (ha : t.format.inRange a = true) (gap : AtGap) {tries : Nat}
    (hI : I own m) (hh : t.Here E a own m (l + 1) p) (ht : env.Paced → Enough t env a l p m tries) :
    Yields env I own (FoundChild t I E a gap l p)
      (t.childWithin (.through p a (l + 1)) gap tries env m) := by
  induction tries generalizing own m with
  | zero =>
    rw [childWithin_zero]
    refine ⟨fun hp => ?_, own, .refl own, hI⟩
    rcases ht hp with h | ⟨h, _⟩ <;> omega
  | succ tries ih =>
    have hown := R.owns hI
    obtain ⟨raw, hraw⟩ : ∃ raw, m.memory.entry p (tableIndex a (l + 1)) = raw := ⟨_, rfl⟩
    by_cases htab : t.format.isTable raw (l + 1) = true
    · rw [childWithin_of_table t env gap hraw htab]
      refine ⟨own, .refl own, hI, ?_⟩
      have hc := R.here_child hI hh (by rw [hraw]; exact htab)
      rw [hraw] at hc
      exact hc
    · rw [Bool.not_eq_true] at htab
      rcases childWithin_bare hown hh.place hraw htab env gap tries with
        ⟨rfl, rfl, hrun⟩ | ⟨entries, hl, hlen, hrun⟩
      · rw [hrun]
        exact ⟨own, .refl own, hI, rfl, hh, hraw⟩
      · rw [hrun]
        -- after an offer, either a table is there or somebody used up rank
        refine (R.offerTable_yields ha hI hh hraw htab hl hlen).bind ?_
        intro _ own' n h'
        obtain ⟨hI', hh', hwon⟩ := h'
        refine ih hI' hh' fun hp => ?_
        have h2 : env.rank m.client + 2 ≤ tries + 1 := by
          rcases ht hp with h | ⟨_, h⟩
          · exact h
          · rw [hraw, htab] at h
            exact absurd h Bool.false_ne_true
        rcases hwon hp with h | h
        · exact .inr ⟨by omega, h⟩
        · exact .inl (by omega)

theorem child_yields (ha : t.format.inRange a = true) (gap : AtGap) (hI : I own m)
    (hh : t.Here E a own m (l + 1) p) :
    Yields env I own (FoundChild t I E a gap l p) (t.child (.through p a (l + 1)) gap env m) :=
  R.childWithin_yields ha gap hI hh fun _ => .inl (Nat.le_refl _)

/-! ## all the way down -/

/-- where a walk to the level `target` ends -/
def FoundSlot (t : Tree) (I : Layout → Machine σ → Prop) (E : Machine σ → Nat → Prop)
    (a : GuestAddr) (gap : AtGap) (target : Nat) (v : Option Slot) (own : Layout) (n : Machine σ) :
    Prop :=
  I own n ∧ match v with
  | some s => ∃ p, s = .through p a target ∧ t.Here E a own n target p
  | none => gap = .stop ∧ ∃ level p, target < level ∧ t.Here E a own n level p ∧
      n.memory.entry p (tableIndex a level) = 0

theorem descend_yields (ha : t.format.inRange a = true) (gap : AtGap) (target : Nat) {depth : Nat}
    (hI : I own m) (hh : t.Here E a own m (target + depth) p) :
    Yields env I own (FoundSlot t I E a gap target) (t.descend a target gap depth p env m) := by
  induction depth generalizing own m p with
  | zero => exact ⟨own, .refl own, hI, p, rfl, hh⟩
  | succ depth ih =>
    unfold descend
    refine (R.child_yields ha gap hI hh).bind ?_
    rintro (_ | c) own' n ⟨hI', hc⟩
    · exact ⟨own', .refl own', hI', hc.1, target + depth + 1, p, by omega, hc.2⟩
    · exact ih hI' hc

theorem reach_yields (ha : t.format.inRange a = true) (gap : AtGap) {target : Nat}
    (ht : target ≤ t.format.rootLevel) (hI : I own m) :
    Yields env I own (FoundSlot t I E a gap target) (t.reach a target gap env m) := by
  apply R.descend_yields ha gap target hI
  rw [Nat.add_sub_cancel' ht]
  refine ⟨?_, .inl (t.root_mem_path _ a)⟩
  rw [(R.owns hI).root, (t.format.inRange_iff_root a).mp ha]

end

end Tree.Rely

end NestedPaging
