import NestedPaging.Proofs.Tree.Provision
import NestedPaging.Proofs.Tree.Ranges
import NestedPaging.Proofs.Tree.Refinement

/-!
# A range is mapped page by page

`install` advances by as many pages as one update covers. `installFrom_yields` is its loop rule: from
what one update does to an invariant of the pages behind it, to the whole range. The same invariant
(`Tree.ServedTo`) carries the loop that updates one page at a time, so that both give the same
translations, and a range that cannot be served to its end is served up to some page.

* `Calm.advances`       an update serves the pages that it covers, or none;
* `Calm.install_ok`, `Calm.install_error`, `Calm.updatePages_ok`   what the loops have served then;
* `Calm.install_room`, `Calm.updatePages_room`   both end well if there is room for the tables.
-/

namespace NestedPaging

variable {σ : Type}

namespace Mapping
variable {f : Format} {p : Mapping} {pages : Nat}

/-- the range wraps around, or ends behind the input space -/
def Overruns (p : Mapping) (f : Format) (pages : Nat) : Prop :=
  2 ^ 64 ≤ p.gpa.bits.toNat + pages * 4096 ∨ 2 ^ f.inputBits < p.gpa.bits.toNat + pages * 4096

theorem holds_iff : f.holds p.gpa pages = true ↔ ¬ p.Overruns f pages := by
  have hbits : 2 ^ f.inputBits ≤ 2 ^ 48 := Nat.pow_le_pow_right (by decide) f.inputBits_le
  unfold Format.holds Overruns
  rw [decide_eq_true_iff, Nat.one_shiftLeft]
  omega

theorem Serves.not_overruns (h : p.Serves f pages) : ¬ p.Overruns f pages := by
  rw [← holds_iff, Format.holds, decide_eq_true_iff, Nat.one_shiftLeft]
  exact h.holds

theorem not_overruns (h : ¬ p.Overruns f pages) : p.Serves f pages ∨
    0 < pages ∧ (¬ 4096 ∣ p.gpa.bits.toNat ∨
      4096 ∣ p.gpa.bits.toNat ∧ p.maps = true ∧ ¬ 4096 ∣ p.phys.bits.toNat) := by
  by_cases hs : p.Serves f pages
  · exact .inl hs
  rw [← holds_iff, Format.holds, decide_eq_true_iff, Nat.one_shiftLeft] at h
  right
  by_contra hbad
  simp only [not_and, not_or, not_not] at hbad
  exact hs ⟨fun hpos => (hbad hpos).1, fun hpos hmap => (hbad hpos).2 (hbad hpos).1 hmap, h⟩

end Mapping

namespace Tree

/-- the same request as updates of one page each -/
def updatePages (t : Tree) (p : Mapping) : Nat → Act σ TableError Unit
  | 0 => pure ()
  | pages + 1 => do
    let _ ← t.update p 0
    t.updatePages (p.advance 1) pages

/-- every address has the same translation -/
def Agree (t : Tree) (m n : Machine σ) : Prop :=
  ∀ (a : GuestAddr) (env : Env σ), ∃ x y,
    (t.lookup a : Act σ TableError (Option Leaf)) env m = .ok x m ∧
    (t.lookup a : Act σ TableError (Option Leaf)) env n = .ok y n ∧
    x.map (Leaf.translation a) = y.map (Leaf.translation a)

/-- from `m` to `n` exactly the first `pages` pages of the request were served -/
def Installed (t : Tree) (p : Mapping) (pages : Nat) (m n : Machine σ) : Prop :=
  ∀ (a : GuestAddr) (env : Env σ), ∃ before found,
    (t.lookup a : Act σ TableError (Option Leaf)) env m = .ok before m ∧
    (t.lookup a : Act σ TableError (Option Leaf)) env n = .ok found n ∧
    if p.Within pages a then
      if p.maps then
        ∃ l, found = some l ∧
          (l.physAddr a).bits.toNat
            = p.phys.bits.toNat + (a.bits.toNat - p.gpa.bits.toNat) ∧
          ∀ level, l.attrs = t.format.attrs (t.format.leafBits m.splitExecute level p.attrs)
      else found = none
    else found.map (Leaf.translation a) = before.map (Leaf.translation a)

/-- the same, up to what the 48 bits of an output address can tell apart -/
def InstalledModulo (t : Tree) (p : Mapping) (pages : Nat) (m n : Machine σ) : Prop :=
  ∀ (a : GuestAddr) (env : Env σ), ∃ before found,
    (t.lookup a : Act σ TableError (Option Leaf)) env m = .ok before m ∧
    (t.lookup a : Act σ TableError (Option Leaf)) env n = .ok found n ∧
    if p.Within pages a then
      if p.maps then
        ∃ l, found = some l ∧
          (l.physAddr a).bits.toNat
            = (p.phys.bits.toNat + (a.bits.toNat - p.gpa.bits.toNat)) % 2 ^ 48 ∧
          ∀ level, l.attrs = t.format.attrs (t.format.leafBits m.splitExecute level p.attrs)
      else found = none
    else found.map (Leaf.translation a) = before.map (Leaf.translation a)

variable {t : Tree} {others : Nat → Prop} {env : Env σ} {own : Layout} {m n : Machine σ}
  {p : Mapping} {pages d k order : Nat}

theorem installedModulo_of_view
    (hv : t.view n.memory = p.ranged t.format m.splitExecute pages (t.view m.memory)) :
    t.InstalledModulo p pages m n := by
  intro a env
  refine ⟨_, _, t.lookup_ok a env m, t.lookup_ok a env n, ?_⟩
  have ha : (t.leaf? n.memory a).map (Leaf.translation a)
      = p.ranged t.format m.splitExecute pages (t.view m.memory) a := congrFun hv a
  unfold Mapping.ranged at ha
  by_cases hw : p.Within pages a
  · rw [if_pos hw] at ha ⊢
    by_cases hmap : p.maps = true
    · rw [if_pos hmap] at ha ⊢
      obtain ⟨l, hl, htr⟩ := Option.map_eq_some_iff.mp ha
      obtain ⟨hout, hattrs⟩ := Prod.mk.inj htr
      refine ⟨l, hl, ?_, fun level => ?_⟩
      · rw [hout, Mapping.toNat_output hw.1]
      · rw [hattrs, t.format.attrs_leafBits hmap]
    · rw [if_neg hmap] at ha ⊢
      exact Option.map_eq_none_iff.mp ha
  · rw [if_neg hw] at ha ⊢
    exact ha

/-- below the end of the output space an address keeps all its bits -/
theorem InstalledModulo.installed (h : t.InstalledModulo p pages m n)
    (hp : p.maps = true → p.phys.bits.toNat + pages * 4096 ≤ 2 ^ 48) : t.Installed p pages m n := by
  intro a env
  obtain ⟨before, found, hm, hn, hf⟩ := h a env
  refine ⟨before, found, hm, hn, ?_⟩
  by_cases hw : p.Within pages a
  · rw [if_pos hw] at hf ⊢
    by_cases hmap : p.maps = true
    · rw [if_pos hmap] at hf ⊢
      obtain ⟨l, hl, hout, hattrs⟩ := hf
      have hroom := hp hmap
      obtain ⟨hle, hlt⟩ := hw
      refine ⟨l, hl, ?_, hattrs⟩
      rw [hout, Nat.mod_eq_of_lt (by omega)]
    · rw [if_neg hmap] at hf ⊢
      exact hf
  · rw [if_neg hw] at hf ⊢
    exact hf

theorem installed_of_view (hp : p.maps = true → p.phys.bits.toNat + pages * 4096 ≤ 2 ^ 48)
    (hv : t.view n.memory = p.ranged t.format m.splitExecute pages (t.view m.memory)) : t.Installed p pages m n :=
  (installedModulo_of_view hv).installed hp

/-- which translations a range has does not depend on how it was served -/
theorem Installed.agree {n' : Machine σ} (h : t.Installed p pages m n) (h' : t.Installed p pages m n') :
    t.Agree n n' := by
  intro a env
  obtain ⟨before, found, hm, hn, hf⟩ := h a env
  obtain ⟨before', found', hm', hn', hf'⟩ := h' a env
  obtain rfl : before = before' := (EStateM.Result.ok.inj (hm.symm.trans hm')).1
  refine ⟨found, found', hn, hn', ?_⟩
  by_cases hw : p.Within pages a
  · rw [if_pos hw] at hf hf'
    by_cases hmap : p.maps = true
    · rw [if_pos hmap] at hf hf'
      obtain ⟨l, rfl, hout, hattrs⟩ := hf
      obtain ⟨l', rfl, hout', hattrs'⟩ := hf'
      have haddr : l.physAddr a = l'.physAddr a := Addr.ext_toNat (hout.trans hout'.symm)
      exact congrArg some (Prod.ext haddr ((hattrs 0).trans (hattrs' 0).symm))
    · rw [if_neg hmap] at hf hf'
      rw [hf, hf']
  · rw [if_neg hw] at hf hf'
    rw [hf, hf']

/-! ## the loops -/

/-- the rule for `install`: `J d` holds when `d` pages are served, and `I d` when the update after them
fails -/
theorem installFrom_yields {I J : Nat → Layout → Machine σ → Prop} (hd : d ≤ pages)
    (hstep : ∀ d own m, d < pages → J d own m →
      Yields env (I d) own (fun c own' n => d + 2 ^ c ≤ pages ∧ J (d + 2 ^ c) own' n)
        (t.update (p.advance d) (min (pages - d).log2 t.format.maxOrder) env m)) (hJ : J d own m) :
    Yields env (fun own' n => ∃ k < pages, I k own' n) own (fun _ => J pages)
      (t.installFrom (p.advance d) (pages - d) env m) := by
  induction hk : pages - d using Nat.strong_induction_on generalizing d own m with
  | _ k ih =>
    subst hk
    unfold installFrom
    by_cases h0 : pages - d = 0
    · rw [dif_pos h0]
      obtain rfl : d = pages := by omega
      exact ⟨own, .refl own, hJ⟩
    rw [dif_neg h0]
    have hlt : d < pages := by omega
    refine ((hstep d own m hlt hJ).mono (fun _ _ hI => ⟨d, hlt, hI⟩) fun _ _ _ => id).bind ?_
    rintro c own' n ⟨hle, hJ'⟩
    have hpos := Nat.two_pow_pos c
    rw [Nat.one_shiftLeft, p.advance_add, Nat.sub_sub]
    exact ih _ (by omega) hle hJ' rfl

theorem install_yields {I J : Nat → Layout → Machine σ → Prop} (h : ¬ p.Overruns t.format pages)
    (hstep : ∀ d own m, d < pages → J d own m →
      Yields env (I d) own (fun c own' n => d + 2 ^ c ≤ pages ∧ J (d + 2 ^ c) own' n)
        (t.update (p.advance d) (min (pages - d).log2 t.format.maxOrder) env m)) (hJ : J 0 own m) :
    Yields env (fun own' n => ∃ k < pages, I k own' n) own (fun _ => J pages) (t.install p pages env m) := by
  have hloop := installFrom_yields (Nat.zero_le pages) hstep hJ
  rw [p.advance_zero] at hloop
  unfold install
  rw [if_pos (Mapping.holds_iff.mpr h)]
  exact hloop

/-- from any update of the next pages, `J` is known of the pages that it covers -/
def Advances (t : Tree) (env : Env σ) (p : Mapping) (pages : Nat) (I J : Nat → Layout → Machine σ → Prop) : Prop :=
  ∀ d order own m, d < pages → order ≤ t.format.maxOrder → J d own m →
    Yields env (I d) own (fun c own' n => c ≤ order ∧ J (d + 2 ^ c) own' n) (t.update (p.advance d) order env m)

namespace Advances
variable {I J : Nat → Layout → Machine σ → Prop} (hadv : t.Advances env p pages I J)
include hadv

theorem install (h : ¬ p.Overruns t.format pages) (hJ : J 0 own m) :
    Yields env (fun own' n => ∃ k < pages, I k own' n) own (fun _ => J pages) (t.install p pages env m) := by
  refine install_yields h (fun d own m hd hJ => ?_) hJ
  refine (hadv d _ own m hd (Nat.min_le_right ..) hJ).mono (fun _ _ => id) fun c own' n hc => ⟨?_, hc.2⟩
  have hlog : 2 ^ (pages - d).log2 ≤ pages - d := Nat.log2_self_le (by omega)
  have hle := Nat.pow_le_pow_right Nat.two_pos (Nat.le_trans hc.1 (Nat.min_le_left ..))
  omega

theorem updatePagesFrom (hd : d + k = pages) (hJ : J d own m) :
    Yields env (fun own' n => ∃ k < pages, I k own' n) own (fun _ => J pages)
      (t.updatePages (p.advance d) k env m) := by
  induction k generalizing d own m with
  | zero =>
    subst hd
    exact ⟨own, .refl own, hJ⟩
  | succ k ih =>
    have hlt : d < pages := by omega
    unfold Tree.updatePages
    refine ((hadv d 0 own m hlt (Nat.zero_le _) hJ).mono (fun _ _ hI => ⟨d, hlt, hI⟩) fun _ _ _ => id).bind ?_
    rintro c own' n ⟨hc, hJ'⟩
    obtain rfl : c = 0 := Nat.le_zero.mp hc
    rw [p.advance_add]
    exact ih (by omega) hJ'

theorem updatePages (hJ : J 0 own m) :
    Yields env (fun own' n => ∃ k < pages, I k own' n) own (fun _ => J pages) (t.updatePages p pages env m) := by
  have hloop := hadv.updatePagesFrom (Nat.zero_add pages) hJ
  rw [p.advance_zero] at hloop
  exact hloop

end Advances

/-! ## what is served -/

/-- the tree of `m` after `d` pages of the request were served -/
structure ServedTo (t : Tree) (others : Nat → Prop) (p : Mapping) (m : Machine σ) (d : Nat) (own : Layout)
    (n : Machine σ) : Prop where
  owns : t.Owns others own (t.tables n)
  split : n.splitExecute = m.splitExecute
  view : t.view n.memory = p.ranged t.format m.splitExecute d (t.view m.memory)

namespace ServedTo

theorem refl (p : Mapping) (h : t.Owns others own (t.tables m)) : t.ServedTo others p m 0 own m :=
  ⟨h, rfl, (p.ranged_zero ..).symm⟩

/-- a range that is served from its start again -/
theorem again {k n : Machine σ} {own' : Layout} (h : t.ServedTo others p m d own k) (hd : d ≤ pages)
    (h' : t.ServedTo others p k pages own' n) : t.ServedTo others p m pages own' n := by
  refine ⟨h'.owns, h'.split.trans h.split, ?_⟩
  rw [h'.view, h.split, h.view, p.ranged_ranged _ _ _ hd]

end ServedTo

/-- how a loop ends that serves the pages in their order -/
def EndsServed (t : Tree) (p : Mapping) (pages : Nat) (m : Machine σ) :
    EStateM.Result (Stop TableError) (Machine σ) Unit → Prop
  | .ok () n => t.Installed p pages m n
  | .error e n => e = .failed .insufficientMemory ∧ ∃ k < pages, t.Installed p k m n

theorem endsServed_of_yields {r : EStateM.Result (Stop TableError) (Machine σ) Unit} (hc : t.Calm env)
    (hp : p.maps = true → p.phys.bits.toNat + pages * 4096 ≤ 2 ^ 48)
    (h : Yields env (fun own' n => ∃ k < pages, t.ServedTo others p m k own' n) own
      (fun _ => t.ServedTo others p m pages) r) : t.EndsServed p pages m r := by
  match r, h with
  | .ok () n, ⟨_, _, hs⟩ => exact installed_of_view hp hs.view
  | .error (.failed e) n, ⟨he, _, _, k, hk, hs⟩ =>
    have hle : p.phys.bits.toNat + k * 4096 ≤ p.phys.bits.toNat + pages * 4096 :=
      Nat.add_le_add_left (Nat.mul_le_mul_right _ (Nat.le_of_lt hk)) _
    exact ⟨congrArg _ he, k, hk, installed_of_view (fun hm => Nat.le_trans hle (hp hm)) hs.view⟩
  | .error .stuck n, ⟨hstuck, _⟩ => exact absurd hc.paced hstuck

/-- the pages of `m` in use, and those of `d` updates -/
structure Roomy (t : Tree) (others : Nat → Prop) (m : Machine σ) (d : Nat) (own : Layout) (n : Machine σ) : Prop where
  owns : t.Owns others own (t.tables n)
  adds : m.Adds (t.format.rootLevel * d) n

section
variable (hh : env.Honest) (hc : t.Calm env) (h : p.Serves t.format pages)
include hh hc h

/-- an update further on serves the pages that it covers, or none -/
theorem Calm.advances (m : Machine σ) : t.Advances env p pages (t.ServedTo others p m) (t.ServedTo others p m) := by
  intro d order own n hd ho hJ
  have hr := h.refusal?_eq_none hd ho
  refine (hc.update hh hJ.owns hr).mono (fun own' n' hq => ?_) fun c own' n' hu => ?_
  · exact ⟨hq.owns, hq.split.trans hJ.split, hq.view.trans hJ.view⟩
  · have hmoved := Calm.updated (Format.accepts_of_refusal? hr) (.refl hJ.owns) hu
    refine ⟨?_, hmoved.owns, hmoved.split.trans hJ.split, hmoved.view.trans ?_⟩
    · rw [hu.1]
      exact Mapping.covered_le ..
    · show (p.advance d).effect t.format n.splitExecute c (t.view n.memory) = _
      rw [Mapping.effect_eq_ranged, hJ.split, hJ.view]
      exact p.ranged_append _ _ _ _ (h.gpa_lt (Nat.le_of_lt hd))

/-- and it ends well as long as there is room for its tables -/
theorem Calm.advances_room (hroom : env.Room (t.format.rootLevel * pages) m) :
    t.Advances env p pages (fun _ _ _ => False) (t.Roomy others m) := by
  intro d order own n hd ho hJ
  have hr := h.refusal?_eq_none hd ho
  have hmore : t.format.rootLevel * d + t.format.rootLevel ≤ t.format.rootLevel * pages :=
    Nat.mul_le_mul_left _ hd
  have hnext : env.Room t.format.rootLevel n := (hroom.le hmore).after hJ.adds
  obtain ⟨n', own', k, hn, hq, hl, hadds⟩ := hc.update_room hh hJ.owns hr (hnext.le (Nat.sub_le ..))
  rw [hn]
  refine ⟨own', hq.grows, Mapping.covered_le .., hl.owns hq.owns (Format.accepts_of_refusal? hr), ?_⟩
  refine (hJ.adds.trans (hadds.le (Nat.sub_le ..))).le ?_
  exact Nat.mul_le_mul_left _ (Nat.add_le_add_left (Nat.two_pow_pos _) d)

end

theorem ok_of_yields {r : EStateM.Result (Stop TableError) (Machine σ) Unit} {J : Layout → Machine σ → Prop}
    (hc : t.Calm env) (h : Yields env (fun _ _ => ∃ k < pages, False) own (fun _ => J) r) : ∃ n, r = .ok () n := by
  match r, h with
  | .ok () n, _ => exact ⟨n, rfl⟩
  | .error (.failed e) n, ⟨_, _, _, _, _, hf⟩ => exact hf.elim
  | .error .stuck n, ⟨hstuck, _⟩ => exact absurd hc.paced hstuck

section
variable (hh : env.Honest) (hc : t.Calm env) (h : p.Serves t.format pages) (ho : t.Owns others own (t.tables m))
include hh hc h ho

theorem Calm.install_served : Yields env (fun own' n => ∃ k < pages, t.ServedTo others p m k own' n) own
    (fun _ => t.ServedTo others p m pages) (t.install p pages env m) :=
  (hc.advances hh h m).install h.not_overruns (.refl p ho)

theorem Calm.install_ok (hn : t.install p pages env m = .ok () n) : ∃ own', t.ServedTo others p m pages own' n := by
  have hs := hc.install_served hh h ho
  rw [hn] at hs
  obtain ⟨own', _, hs⟩ := hs
  exact ⟨own', hs⟩

theorem Calm.install_error {e : Stop TableError} (he : t.install p pages env m = .error e n) :
    ∃ own' k, k < pages ∧ t.ServedTo others p m k own' n := by
  have hs := hc.install_served hh h ho
  rw [he] at hs
  match e, hs with
  | .failed _, ⟨_, own', _, k, hk, hs⟩ => exact ⟨own', k, hk, hs⟩
  | .stuck, ⟨hstuck, _⟩ => exact absurd hc.paced hstuck

theorem Calm.updatePages_ok (hn : t.updatePages p pages env m = .ok () n) :
    ∃ own', t.ServedTo others p m pages own' n := by
  have hs := (hc.advances hh h m).updatePages (.refl p ho)
  rw [hn] at hs
  obtain ⟨own', _, hs⟩ := hs
  exact ⟨own', hs⟩

variable (hroom : env.Room (t.format.rootLevel * pages) m)
include hroom

theorem Calm.install_room : ∃ n, t.install p pages env m = .ok () n :=
  ok_of_yields hc ((hc.advances_room hh h hroom).install h.not_overruns ⟨ho, .refl _ m⟩)

theorem Calm.updatePages_room : ∃ n, t.updatePages p pages env m = .ok () n :=
  ok_of_yields hc ((hc.advances_room hh h hroom).updatePages ⟨ho, .refl _ m⟩)

end

/-! ## requests that are not in order -/

theorem install_overruns (h : p.Overruns t.format pages) (env : Env σ) (m : Machine σ) :
    t.install p pages env m = .error (.failed (.outOfRange p.gpa.bits)) m := by
  unfold install
  rw [if_neg fun hh => Mapping.holds_iff.mp hh h]
  rfl

theorem install_of_update_error {e : Stop TableError} (h : ¬ p.Overruns t.format pages) (hpos : 0 < pages)
    (he : t.update p (min pages.log2 t.format.maxOrder) env m = .error e n) :
    t.install p pages env m = .error e n := by
  unfold install installFrom
  rw [if_pos (Mapping.holds_iff.mpr h), dif_neg (Nat.ne_of_gt hpos), Act.bind_apply, he]

theorem install_misaligned (h : ¬ p.Overruns t.format pages) (hpos : 0 < pages)
    (hg : ¬ 4096 ∣ p.gpa.bits.toNat) (env : Env σ) (m : Machine σ) :
    t.install p pages env m = .error (.failed (.misaligned p.gpa.bits)) m := by
  refine install_of_update_error h hpos (update_refused ?_ env m)
  have halign : p.gpa.isPageAligned = false := Bool.eq_false_iff.mpr fun e => hg (p.gpa.isPageAligned_iff.mp e)
  unfold Format.refusal?
  rw [halign]
  rfl

theorem install_misaligned_phys (h : ¬ p.Overruns t.format pages) (hpos : 0 < pages)
    (hg : 4096 ∣ p.gpa.bits.toNat) (hmap : p.maps = true) (hp : ¬ 4096 ∣ p.phys.bits.toNat) (env : Env σ)
    (m : Machine σ) : t.install p pages env m = .error (.failed (.misaligned p.phys.bits)) m := by
  refine install_of_update_error h hpos (update_refused ?_ env m)
  have halign : p.phys.isPageAligned = false := Bool.eq_false_iff.mpr fun e => hp (p.phys.isPageAligned_iff.mp e)
  unfold Format.refusal?
  rw [p.gpa.isPageAligned_iff.mpr hg, halign, hmap]
  rfl

theorem Calm.install_outOfRange_iff (hh : env.Honest) (hc : t.Calm env) (ho : t.Owns others own (t.tables m)) :
    t.install p pages env m = .error (.failed (.outOfRange p.gpa.bits)) n ↔ p.Overruns t.format pages ∧ n = m := by
  constructor
  · intro he
    by_cases hov : p.Overruns t.format pages
    · rw [install_overruns hov] at he
      injection he with _ hn
      exact ⟨hov, hn.symm⟩
    rcases Mapping.not_overruns hov with hs | ⟨hpos, hg | ⟨hg, hmap, hph⟩⟩
    · have hserved := hc.install_served hh hs ho
      rw [he] at hserved
      cases hserved.1
    · rw [install_misaligned hov hpos hg] at he
      cases he
    · rw [install_misaligned_phys hov hpos hg hmap hph] at he
      cases he
  · rintro ⟨hov, rfl⟩
    exact install_overruns hov env n

/-- a range that leaves the input space, and nothing else, is out of range; a misaligned one is refused
with nothing changed; any other is served as by updates of one page each, to its end or, for lack of
memory, up to some page; and then the same call, if it gets memory, makes up for the rest -/
theorem install_refines_pages (hm : t.Reachable others m) (hh : env.Honest) (hc : t.Calm env) (p : Mapping)
    (pages : Nat) (hp : p.maps = true → p.phys.bits.toNat + pages * 4096 ≤ 2 ^ 48) :
    (∀ n, t.install p pages env m = .error (.failed (.outOfRange p.gpa.bits)) n ↔
      p.Overruns t.format pages ∧ n = m) ∧
    (¬ p.Overruns t.format pages → 0 < pages →
      (¬ 4096 ∣ p.gpa.bits.toNat → t.install p pages env m = .error (.failed (.misaligned p.gpa.bits)) m) ∧
      (4096 ∣ p.gpa.bits.toNat → p.maps = true → ¬ 4096 ∣ p.phys.bits.toNat →
        t.install p pages env m = .error (.failed (.misaligned p.phys.bits)) m)) ∧
    (p.Serves t.format pages →
      t.EndsServed p pages m (t.install p pages env m) ∧
      -- whoever updates the pages one at a time gets the same translations, and can get to the end
      (∀ (env' : Env σ), env'.Honest → t.Calm env' →
        (env'.Room (t.format.rootLevel * pages) m → ∃ n', t.updatePages p pages env' m = .ok () n') ∧
        ∀ n n', t.install p pages env m = .ok () n → t.updatePages p pages env' m = .ok () n' → t.Agree n n') ∧
      -- so does whoever calls again after a failure
      ∀ e n, t.install p pages env m = .error e n → ∀ (env' : Env σ), env'.Honest → t.Calm env' →
        (env'.Room (t.format.rootLevel * pages) n → ∃ n', t.install p pages env' n = .ok () n') ∧
        ∀ n', t.install p pages env' n = .ok () n' → t.Installed p pages m n' ∧
          ∀ (env₁ : Env σ) n₁, env₁.Honest → t.Calm env₁ → t.install p pages env₁ m = .ok () n₁ → t.Agree n₁ n') := by
  obtain ⟨own, ho⟩ := hm.owns
  refine ⟨fun n => hc.install_outOfRange_iff hh ho, fun hov hpos => ⟨fun hg => ?_, fun hg hmap hph => ?_⟩,
    fun hs => ⟨?_, fun env' hh' hc' => ⟨fun hroom => ?_, fun n n' hn hn' => ?_⟩,
      fun e n he env' hh' hc' => ?_⟩⟩
  · exact install_misaligned hov hpos hg env m
  · exact install_misaligned_phys hov hpos hg hmap hph env m
  · exact endsServed_of_yields hc hp (hc.install_served hh hs ho)
  · exact hc'.updatePages_room hh' hs ho hroom
  · obtain ⟨_, hall⟩ := hc.install_ok hh hs ho hn
    obtain ⟨_, hall'⟩ := hc'.updatePages_ok hh' hs ho hn'
    exact (installed_of_view hp hall.view).agree (installed_of_view hp hall'.view)
  · obtain ⟨_, k, hk, hpart⟩ := hc.install_error hh hs ho he
    refine ⟨hc'.install_room hh' hs hpart.owns, fun n' hn' => ?_⟩
    obtain ⟨_, hrest⟩ := hc'.install_ok hh' hs hpart.owns hn'
    have hall : t.Installed p pages m n' := installed_of_view hp (hpart.again (Nat.le_of_lt hk) hrest).view
    refine ⟨hall, fun env₁ n₁ hh₁ hc₁ hn₁ => ?_⟩
    obtain ⟨_, hall₁⟩ := hc₁.install_ok hh₁ hs ho hn₁
    exact (installed_of_view hp hall₁.view).agree hall

/-- 512 pages for which there is no memory at first -/
theorem install_refines_pages_again : ∃ (t : Tree) (m n n' : Machine Unit) (l : Leaf),
    t.install ⟨⟨0⟩, ⟨0x200000⟩, .ofPerms .readWrite⟩ 512 (.offering []) m
        = .error (.failed .insufficientMemory) n ∧
      t.install ⟨⟨0⟩, ⟨0x200000⟩, .ofPerms .readWrite⟩ 512 (.offering (List.range' 2 1024)) n = .ok () n' ∧
      t.leaf? n'.memory ⟨0x1000⟩ = some l ∧ (l.physAddr ⟨0x1000⟩).bits.toNat = 0x201000 := by
  have hh : (Env.offering [] : Env Unit).Honest := Env.honest_offering (by decide)
  obtain ⟨t, m, hm, hf, hlive, _, h0⟩ := Reachable.exists_empty .stage2 ()
  have hs : Mapping.Serves ⟨⟨0⟩, ⟨0x200000⟩, .ofPerms .readWrite⟩ t.format 512 := by
    rw [hf]
    exact ⟨fun _ => by decide, fun _ _ => by decide, by decide⟩
  obtain ⟨own, ho⟩ := hm.owns
  have hfail := update_exhausted (t := t) ⟨⟨0⟩, ⟨0x200000⟩, .ofPerms .readWrite⟩ 9 ho
    (by rw [hf]; decide) rfl (by rw [hf]; rfl) (Env.offering_nil (t.enterWalk m))
    (h0 _ (tableIndex_lt _ _))
  have hn := install_of_update_error hs.not_overruns (by decide) (by rw [hf]; exact hfail)
  -- the failure has left the pages in use alone
  have htables := (alike_leaveWalk (t := t) ((t.enterWalk m).note .exhausted)).tables.trans
    ((alike_note (t.enterWalk m) .exhausted).tables.trans (alike_enterWalk m).tables)
  have hspare := Machine.Spare.behind (m := t.leaveWalk ((t.enterWalk m).note .exhausted)) (fun i hi =>
    (hlive i).mp ((congrFun (congrArg Tables.inUse htables) i).mp hi)) 1024
  have hh' : (Env.offering (List.range' 2 1024) : Env Unit).Honest := Env.honest_behind (by decide)
  obtain ⟨_, _, hall⟩ := install_refines_pages hm hh (.offering t []) ⟨⟨0⟩, ⟨0x200000⟩, .ofPerms .readWrite⟩ 512
    (fun _ => by decide)
  obtain ⟨_, _, hagain⟩ := hall hs
  obtain ⟨hroom, hrest⟩ := hagain _ _ hn _ hh' (.offering t _)
  obtain ⟨n', hn'⟩ := hroom (by rw [hf]; exact hspare.room)
  obtain ⟨_, _, _, hfound, hmap⟩ := (hrest n' hn').1 ⟨0x1000⟩ (.offering [])
  obtain ⟨l, rfl, hl, _⟩ := hmap
  exact ⟨t, m, _, n', l, hn, hn', (EStateM.Result.ok.inj hfound).1, hl⟩

end Tree

end NestedPaging
