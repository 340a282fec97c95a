import NestedPaging.Proofs.Tree.Installing

/-!
# The largest leaves

A block can be a leaf of a range if it lies in the range and its size divides the offset of the mapping
(`Mapping.Spans`). The cursor of `install` never stops inside such a block (`Mapping.Uncut`): if it is
served by a run, the run begins at it or in front of it. So the entries of a run are the largest leaves
that its addresses can have, and the updates after it walk past them without splitting one.

* `Cursor.uncut`, `Cursor.largest`   what holds of the cursor and its run;
* `Grown.leafAt`        a walk splits no leaf but that of its own address;
* `Calm.update_shape`   what an update does to the leaves;
* `Calm.shaped`, `Calm.install_shape`   and from it what `install` does.
-/

namespace NestedPaging

variable {σ : Type}

namespace Mapping

/-- the block `x` at `level` lies in the range, and its size divides the offset of the mapping -/
structure Spans (p : Mapping) (pages level x : Nat) : Prop where
  start : p.gpa.bits.toNat ≤ x * 2 ^ blockBits level
  stop : (x + 1) * 2 ^ blockBits level ≤ p.gpa.bits.toNat + pages * 4096
  offset : (2 ^ blockBits level : Int) ∣ (p.gpa.bits.toNat : Int) - p.phys.bits.toNat

/-- the level of the largest leaf that can hold `a` -/
structure Largest (p : Mapping) (f : Format) (pages : Nat) (a : GuestAddr) (level : Nat) : Prop where
  le : level ≤ f.topLeafLevel
  spans : p.Spans pages level (a.block level)
  greatest : ∀ k, level < k → k ≤ f.topLeafLevel → ¬ p.Spans pages k (a.block k)

/-- after `d` pages no block that can be a leaf is served in part -/
def Uncut (p : Mapping) (f : Format) (pages d : Nat) : Prop :=
  ∀ k x, k ≤ f.topLeafLevel → p.Spans pages k x → x * 2 ^ blockBits k < p.gpa.bits.toNat + d * 4096 →
    (x + 1) * 2 ^ blockBits k ≤ p.gpa.bits.toNat + d * 4096

variable {p : Mapping} {f : Format} {pages d level k x : Nat} {a : GuestAddr}

theorem Largest.unique {l : Nat} (h : p.Largest f pages a level) (h' : p.Largest f pages a l) : level = l := by
  rcases Nat.lt_trichotomy level l with hlt | rfl | hlt
  · exact absurd h'.spans (h.greatest l hlt h'.le)
  · rfl
  · exact absurd h.spans (h'.greatest level hlt h.le)

theorem Uncut.zero (p : Mapping) (f : Format) (pages : Nat) : p.Uncut f pages 0 := by
  intro k x _ hs hlt
  have := hs.start
  omega

/-- `q` is the request that remains after `d` pages, and `order` the largest order that it leaves room for -/
structure Cursor (p : Mapping) (f : Format) (pages d : Nat) (q : Mapping) (order : Nat) : Prop where
  gpa : q.gpa.bits.toNat = p.gpa.bits.toNat + d * 4096
  phys : q.phys.bits.toNat = p.phys.bits.toNat + d * 4096
  accepts : f.Accepts q order
  room : d + 2 ^ order ≤ pages
  most : ∀ j, j ≤ f.maxOrder → d + 2 ^ j ≤ pages → j ≤ order

theorem Serves.cursor (h : p.Serves f pages) (hp : p.phys.bits.toNat + pages * 4096 ≤ 2 ^ 48) (hd : d < pages) :
    p.Cursor f pages d (p.advance d) (min (pages - d).log2 f.maxOrder) where
  gpa := toNat_gpa_advance (h.gpa_lt (Nat.le_of_lt hd))
  phys := by
    rw [toNat_phys_advance, Nat.mod_eq_of_lt (by omega)]
  accepts := Format.accepts_of_refusal? (h.refusal?_eq_none hd (Nat.min_le_right ..))
  room := by
    have hlog : 2 ^ (pages - d).log2 ≤ pages - d := Nat.log2_self_le (by omega)
    have hle := Nat.pow_le_pow_right Nat.two_pos (Nat.min_le_left (pages - d).log2 f.maxOrder)
    omega
  most j hj hroom := Nat.le_min.mpr ⟨(Nat.le_log2 (by omega)).mpr (by omega), hj⟩

namespace Cursor
variable {q : Mapping} {order : Nat} (h : p.Cursor f pages d q order)
include h

theorem fits : q.Fits order (q.leafLevel order f.topLeafLevel) := fits_leafLevel h.accepts f.topLeafLevel_le

theorem run_dvd : 2 ^ (12 + q.coveredOrder f order) ∣ q.gpa.bits.toNat :=
  run_dvd_gpa (Nat.le_trans (q.leafLevel_le ..) f.topLeafLevel_le) h.fits

/-- the run ends at the cursor after it -/
theorem run_stop : q.gpa.bits.toNat + 2 ^ (12 + q.coveredOrder f order)
    = p.gpa.bits.toNat + (d + 2 ^ q.coveredOrder f order) * 4096 := by
  rw [h.gpa, Nat.pow_add]
  omega

theorem run_le : d + 2 ^ q.coveredOrder f order ≤ pages := by
  have hle : 2 ^ q.coveredOrder f order ≤ 2 ^ order := Nat.pow_le_pow_right Nat.two_pos (covered_le ..)
  have hroom := h.room
  omega

/-- the entries of a run are as large as the blocks that begin at the cursor or behind it -/
theorem fits_of_spans (hs : p.Spans pages k x) (hk : k ≤ f.topLeafLevel) (hx : q.gpa.bits.toNat ≤ x * 2 ^ blockBits k)
    (hdvd : 2 ^ blockBits k ∣ q.gpa.bits.toNat) : q.Fits order k := by
  refine ⟨h.most _ ?_ ?_, hdvd, fun _ => ?_⟩
  · have htop := f.topLeafLevel_lt
    exact Nat.mul_le_mul_right _ (Nat.le_trans hk (Nat.le_trans (Nat.le_of_lt htop) (Nat.sub_le ..)))
  · -- the block fits between the cursor and the end of the range
    have hstop := hs.stop
    have hgpa := h.gpa
    rw [Nat.add_mul, Nat.one_mul] at hstop
    have hsize : 2 ^ blockBits k = 4096 * 2 ^ (k * indexBits) := Nat.pow_add 2 12 _
    omega
  · have hoff := hs.offset
    have hphys : (q.phys.bits.toNat : Int) = q.gpa.bits.toNat - (p.gpa.bits.toNat - p.phys.bits.toNat) := by
      rw [h.gpa, h.phys]
      omega
    rw [← Int.natCast_dvd_natCast, hphys]
    exact Int.dvd_sub (by exact_mod_cast hdvd) (by exact_mod_cast hoff)

theorem le_of_spans (hw : p.Uncut f pages d) (hs : p.Spans pages k x) (hk : k ≤ f.topLeafLevel)
    (hstop : q.gpa.bits.toNat < (x + 1) * 2 ^ blockBits k)
    (hstart : x * 2 ^ blockBits k < q.gpa.bits.toNat + 2 ^ (12 + q.coveredOrder f order)) :
    k ≤ q.leafLevel order f.topLeafLevel := by
  have hx : q.gpa.bits.toNat ≤ x * 2 ^ blockBits k := by
    by_contra hlt
    have huncut := hw k x hk hs (h.gpa ▸ Nat.lt_of_not_le hlt)
    have hgpa := h.gpa
    omega
  refine le_leafLevel f.topLeafLevel_le (h.fits_of_spans hs hk hx ?_) hk
  rcases Nat.le_total (12 + q.coveredOrder f order) (blockBits k) with hle | hle
  · -- a block that is no smaller than the run begins with it
    have hdvd : 2 ^ (12 + q.coveredOrder f order) ∣ x * 2 ^ blockBits k :=
      Nat.dvd_mul_left_of_dvd (Nat.pow_dvd_pow 2 hle) x
    rcases Nat.eq_or_lt_of_le hx with heq | hlt
    · rw [heq]
      exact Nat.dvd_mul_left ..
    · exact absurd (add_le_of_dvd h.run_dvd hdvd hlt) (Nat.not_le.mpr hstart)
  · exact Nat.dvd_trans (Nat.pow_dvd_pow 2 hle) h.run_dvd

/-- blocks no larger than the entries of the run end where it ends -/
theorem dvd_run_stop (hk : k ≤ q.leafLevel order f.topLeafLevel) :
    2 ^ blockBits k ∣ q.gpa.bits.toNat + 2 ^ (12 + q.coveredOrder f order) := by
  have hl4 := Nat.le_trans (q.leafLevel_le order f.topLeafLevel) f.topLeafLevel_le
  have hentry : 2 ^ blockBits k ∣ 2 ^ blockBits (q.leafLevel order f.topLeafLevel) :=
    Nat.pow_dvd_pow 2 (Nat.add_le_add_left (Nat.mul_le_mul_right _ hk) _)
  have hrun : 2 ^ blockBits k ∣ 2 ^ (12 + q.coveredOrder f order) := by
    rw [coveredOrder, two_pow_covered hl4 h.fits]
    exact Nat.dvd_mul_left_of_dvd hentry _
  exact Nat.dvd_add (Nat.dvd_trans hrun h.run_dvd) hrun

/-- the cursor goes on to where no such block is served in part either -/
theorem uncut (hw : p.Uncut f pages d) : p.Uncut f pages (d + 2 ^ q.coveredOrder f order) := by
  intro k x hk hs hlt
  rw [← h.run_stop] at hlt ⊢
  by_cases hbefore : (x + 1) * 2 ^ blockBits k ≤ q.gpa.bits.toNat
  · exact Nat.le_trans hbefore (Nat.le_add_right ..)
  · have hle := h.le_of_spans hw hs hk (Nat.lt_of_not_le hbefore) hlt
    rw [Nat.add_mul, Nat.one_mul]
    exact add_le_of_dvd (Nat.dvd_mul_left ..) (h.dvd_run_stop hle) hlt

/-- the addresses of a run have its entries for their largest leaves -/
theorem largest (hw : p.Uncut f pages d) (hmap : q.maps = true) (ha : q.Covers (q.coveredOrder f order) a) :
    p.Largest f pages a (q.leafLevel order f.topLeafLevel) := by
  have hfits := h.fits
  have hfrom : ∀ k, a.block k * 2 ^ blockBits k ≤ a.bits.toNat := fun k => Nat.div_mul_le_self ..
  have hto : ∀ k, a.bits.toNat < (a.block k + 1) * 2 ^ blockBits k := fun k =>
    Nat.lt_mul_of_div_lt (Nat.lt_succ_self _) (Nat.two_pow_pos _)
  refine ⟨q.leafLevel_le .., ⟨?_, ?_, ?_⟩, fun k hlt hk hs => ?_⟩
  · calc p.gpa.bits.toNat ≤ q.gpa.bits.toNat := h.gpa ▸ Nat.le_add_right ..
      _ = q.gpa.block (q.leafLevel order f.topLeafLevel) * _ := (Nat.div_mul_cancel hfits.gpa).symm
      _ ≤ _ := Nat.mul_le_mul_right _ (Nat.div_le_div_right ha.1)
  · have hstop := add_le_of_dvd (Nat.dvd_mul_left ..) (h.dvd_run_stop (Nat.le_refl _))
      (Nat.lt_of_le_of_lt (hfrom _) ha.2)
    rw [h.run_stop] at hstop
    rw [Nat.add_mul, Nat.one_mul]
    exact Nat.le_trans hstop (Nat.add_le_add_left (Nat.mul_le_mul_right _ h.run_le) _)
  · have hoff : (p.gpa.bits.toNat : Int) - p.phys.bits.toNat = q.gpa.bits.toNat - q.phys.bits.toNat := by
      rw [h.gpa, h.phys]
      omega
    rw [hoff]
    exact Int.dvd_sub (by exact_mod_cast hfits.gpa) (by exact_mod_cast hfits.phys hmap)
  · have hle := h.le_of_spans hw hs hk (Nat.lt_of_le_of_lt ha.1 (hto k)) (Nat.lt_of_le_of_lt (hfrom k) ha.2)
    exact absurd hle (Nat.not_le.mpr hlt)

/-- the largest leaf of an address in front of the cursor ends there -/
theorem block_ne (hw : p.Uncut f pages d) {level : Nat} (ha : p.Within d a) (hl : p.Largest f pages a level) :
    a.block level ≠ q.gpa.block level := by
  have hlt : a.block level * 2 ^ blockBits level < p.gpa.bits.toNat + d * 4096 :=
    Nat.lt_of_le_of_lt (Nat.div_mul_le_self ..) ha.2
  have hend := hw level _ hl.le hl.spans hlt
  rw [← h.gpa] at hend
  exact Nat.ne_of_lt ((Nat.le_div_iff_mul_le (Nat.two_pow_pos _)).mpr hend)

end Cursor

end Mapping

/-! ## the leaves of a tree -/

theorem Format.order_of_leafOf {f : Format} {level : Nat} {w : Word} {l : Leaf} (h : f.leafOf level w = some l) :
    l.order = levelOrder level := by
  unfold leafOf at h
  split at h
  · rw [← Option.some.inj h]
    rfl
  · cases h

theorem levelOrder_inj {l k : Nat} (hl : l ≤ 4) (hk : k ≤ 4) (h : levelOrder l = levelOrder k) : l = k := by
  rw [levelOrder_of_le hl, levelOrder_of_le hk] at h
  exact Nat.eq_of_mul_eq_mul_right (by decide) h

namespace Tree

/-- the entry of `a` is a leaf at `level` -/
def LeafAt (t : Tree) (m : Memory) (a : GuestAddr) (level : Nat) : Prop :=
  ∃ l, t.leaf? m a = some l ∧ l.order = levelOrder level

variable {t : Tree} {others : Nat → Prop} {env : Env σ} {own own' : Layout} {T T' : Tables} {m n k : Machine σ}
  {p : Mapping} {order pages d level : Nat} {a g : GuestAddr}

theorem LeafAt.inRange {m : Memory} (h : t.LeafAt m a level) : t.format.inRange a = true := by
  obtain ⟨l, hl, _⟩ := h
  unfold leaf? at hl
  split at hl
  · assumption
  · cases hl

/-- a walk on the way of `g` splits no leaf but that of `g` -/
theorem Grown.leafAt (hg : t.Grown g d own T own' T') (h : t.Owns others own T) (hl : level ≤ 4)
    (ha : t.LeafAt T.memory a level) (hne : a.block level ≠ g.block level) : t.LeafAt T'.memory a level := by
  induction hg with
  | refl => exact ha
  | @attach d k own own' T T' T'' q c hon hat _ ih =>
    refine ih (Owns.owns_attached h hat) ?_
    have hin := ha.inRange
    obtain ⟨l, hleaf, horder⟩ := ha
    by_cases hs : ⟨q, k + 1⟩ ∈ t.path T.memory a ∧ tableIndex a (k + 1) = tableIndex g (k + 1)
    · -- the table would take the place of the leaf of `a`, and so be on the way of `a`
      have hentry : t.leaf? T.memory a = t.format.leafOf (k + 1) (T.memory.entry q (tableIndex g (k + 1))) := by
        rw [t.leaf?_of_mem hin hs.1, ← hs.2]
        exact t.format.leafBelow_of_not_table (by rw [hs.2]; exact hat.old)
      have hk4 : k + 1 ≤ 4 := h.level_le hat.place
      have hlevel := horder.symm.trans (Format.order_of_leafOf (hentry.symm.trans hleaf))
      obtain rfl : level = k + 1 := levelOrder_inj hl hk4 hlevel
      have hblock := h.block_on hat.place hin hs.1 hs.2
      rw [← block_eq_index g hk4] at hblock
      exact absurd hblock hne
    · exact ⟨l, (h.path_off hat.place hat.off hin hs).2.trans hleaf, horder⟩

section
variable (h : t.Owns others own (t.tables k)) (hr : t.format.Accepts p order)
  (hl : t.Lands (fun _ _ => False) p order own k n)
include h hr hl

theorem Lands.leaf?_off (ha : t.format.inRange a = true) (hc : ¬ p.Covers (p.coveredOrder t.format order) a) :
    t.leaf? n.memory a = t.leaf? k.memory a := by
  have hfit := p.fits_leafLevel hr t.format.topLeafLevel_le
  have hle := p.leafLevel_le order t.format.topLeafLevel
  have hl4 := Nat.le_trans hle t.format.topLeafLevel_le
  cases hl with
  | @wrote level q hlevel hh ht =>
    subst hlevel
    rw [show n.memory = _ from congrArg Tables.memory ht]
    refine Owns.leaf?_overwrite_off hh.place h ?_ (fun w hw => Mapping.bare_run hle hfit hw) ha ?_
    · rw [Mapping.length_run hl4]
      exact Mapping.run_le hl4 p order
    · rintro ⟨hon, hin⟩
      have hblock := h.block_of_mem_path ha hh.place hon
      exact hc ((inRun_iff hle hfit hblock.symm).mp hin)
  | nothing _ _ _ _ ht => rw [show n.memory = k.memory from congrArg Tables.memory ht]

/-- what a mapping gives its addresses depends on nothing but the request -/
theorem Lands.leaf?_on (hmap : p.maps = true) (hc : p.Covers (p.coveredOrder t.format order) a) :
    ∃ w, (p.run t.format k.splitExecute order (p.leafLevel order t.format.topLeafLevel))[
        tableIndex a (p.leafLevel order t.format.topLeafLevel)
          - tableIndex p.gpa (p.leafLevel order t.format.topLeafLevel)]? = some w ∧
      t.leaf? n.memory a = t.format.leafOf (p.leafLevel order t.format.topLeafLevel) w ∧
      (t.leaf? n.memory a).isSome := by
  have hfit := p.fits_leafLevel hr t.format.topLeafLevel_le
  have hle := p.leafLevel_le order t.format.topLeafLevel
  have hl4 := Nat.le_trans hle t.format.topLeafLevel_le
  cases hl with
  | @wrote level q hlevel hh ht =>
    subst hlevel
    have ha := Mapping.inRange_of_covers hle hfit hr.inRange hc
    obtain ⟨hb, hfirst, _⟩ := (Mapping.covers_iff hl4 hfit a).mp hc
    obtain ⟨w, hw, htr⟩ := Mapping.translation_run k.splitExecute hle hfit hc
    have hleaf : t.leaf? n.memory a = t.format.leafOf (p.leafLevel order t.format.topLeafLevel) w := by
      rw [show n.memory = _ from congrArg Tables.memory ht]
      refine Owns.leaf?_overwrite_on hh.place h ?_ (fun w hw => Mapping.bare_run hle hfit hw) ha
        ((h.mem_path_iff hh.place rfl (hh.path.resolve_right id) ha).mpr hb) hfirst hw
      rw [Mapping.length_run hl4]
      exact Mapping.run_le hl4 p order
    refine ⟨w, hw, hleaf, ?_⟩
    rw [hleaf, ← Option.isSome_map, htr, if_pos hmap]
    rfl
  | nothing hno _ _ _ _ =>
    rw [hmap] at hno
    cases hno

theorem Lands.leafAt_on (hmap : p.maps = true) (hc : p.Covers (p.coveredOrder t.format order) a) :
    t.LeafAt n.memory a (p.leafLevel order t.format.topLeafLevel) := by
  obtain ⟨w, _, hleaf, hsome⟩ := hl.leaf?_on h hr hmap hc
  obtain ⟨l, hl⟩ := Option.isSome_iff_exists.mp hsome
  exact ⟨l, hl, Format.order_of_leafOf (hleaf.symm.trans hl)⟩

end

/-- a mapping puts leaves where it serves, and keeps those outside its run that are off its way -/
theorem Calm.update_shape (hh : env.Honest) (hc : t.Calm env) (h : t.Owns others own (t.tables m))
    (hr : t.format.refusal? p order = none) (hmap : p.maps = true) :
    Yields env (fun _ _ => True) own (fun c own' n => c = p.coveredOrder t.format order ∧
      t.Owns others own' (t.tables n) ∧
      (∀ a, p.Covers c a → t.LeafAt n.memory a (p.leafLevel order t.format.topLeafLevel)) ∧
      ∀ a level, level ≤ 4 → ¬ p.Covers c a → a.block level ≠ p.gpa.block level →
        t.LeafAt m.memory a level → t.LeafAt n.memory a level) (t.update p order env m) := by
  have hacc := Format.accepts_of_refusal? hr
  refine (hc.update_grown hh h hr rfl).mono (fun _ _ _ => trivial) fun c own' n hu => ?_
  obtain ⟨rfl, k, hg, _, hl⟩ := hu
  have ho := (hg.quiet h).owns
  refine ⟨rfl, hl.owns ho hacc, fun a ha => hl.leafAt_on ho hacc hmap ha, fun a level h4 hout hne ha => ?_⟩
  have hwalk : t.LeafAt k.memory a level := hg.leafAt h h4 ha hne
  unfold LeafAt
  rw [hl.leaf?_off ho hacc hwalk.inRange hout]
  exact hwalk

/-- the tree after `d` pages of the request were mapped -/
structure Shaped (t : Tree) (others : Nat → Prop) (p : Mapping) (pages d : Nat) (own : Layout) (n : Machine σ) :
    Prop where
  owns : t.Owns others own (t.tables n)
  uncut : p.Uncut t.format pages d
  leaf : ∀ a, p.Within d a → ∃ level, p.Largest t.format pages a level ∧ t.LeafAt n.memory a level

theorem Shaped.zero (pages : Nat) (p : Mapping) (h : t.Owns others own (t.tables m)) :
    t.Shaped others p pages 0 own m := by
  refine ⟨h, .zero p t.format pages, fun a ha => ?_⟩
  obtain ⟨hle, hlt⟩ := ha
  omega

section
variable (hh : env.Honest) (hc : t.Calm env) (hs : p.Serves t.format pages) (hmap : p.maps = true)
  (hp : p.phys.bits.toNat + pages * 4096 ≤ 2 ^ 48)
include hh hc hs hmap hp

/-- the next update gives its addresses their largest leaves, and keeps those of the addresses before -/
theorem Calm.shaped (hd : d < pages) (hJ : t.Shaped others p pages d own m) :
    Yields env (fun _ _ => True) own
      (fun c own' n => d + 2 ^ c ≤ pages ∧ t.Shaped others p pages (d + 2 ^ c) own' n)
      (t.update (p.advance d) (min (pages - d).log2 t.format.maxOrder) env m) := by
  have hcur := hs.cursor hp hd
  have hr := hs.refusal?_eq_none hd (Nat.min_le_right (pages - d).log2 t.format.maxOrder)
  refine (hc.update_shape hh hJ.owns hr hmap).mono (fun _ _ => id) fun c own' n hu => ?_
  obtain ⟨rfl, ho, hon, hoff⟩ := hu
  refine ⟨hcur.run_le, ho, hcur.uncut hJ.uncut, fun a ha => ?_⟩
  rcases (Mapping.within_add (hs.gpa_lt (Nat.le_of_lt hd))).mp ha with hbefore | hrun
  · obtain ⟨level, hlarge, hleaf⟩ := hJ.leaf a hbefore
    have h4 := Nat.le_trans hlarge.le t.format.topLeafLevel_le
    refine ⟨level, hlarge, hoff a level h4 (fun hcov => ?_) (hcur.block_ne hJ.uncut hbefore hlarge) hleaf⟩
    have hfrom := hcov.1
    rw [hcur.gpa] at hfrom
    exact absurd hbefore.2 (Nat.not_lt.mpr hfrom)
  · have hcov := Mapping.covers_iff_within.mpr hrun
    exact ⟨_, hcur.largest hJ.uncut hmap hcov, hon a hcov⟩

theorem Calm.install_shape (h : t.Owns others own (t.tables m)) :
    Yields env (fun _ _ => True) own (fun _ => t.Shaped others p pages pages) (t.install p pages env m) := by
  have hloop := install_yields (I := fun _ _ _ => True) hs.not_overruns
    (fun d own m hd hJ => hc.shaped hh hs hmap hp hd hJ) (.zero pages p h)
  exact hloop.mono (fun _ _ _ => trivial) fun _ _ _ => id

end

/-- a request that ended well was in order -/
theorem serves_of_install (h : t.install p pages env m = .ok () n) : p.Serves t.format pages := by
  by_cases hov : p.Overruns t.format pages
  · rw [install_overruns hov] at h
    cases h
  rcases Mapping.not_overruns hov with hs | ⟨hpos, hg | ⟨hg, hmap, hph⟩⟩
  · exact hs
  · rw [install_misaligned hov hpos hg] at h
    cases h
  · rw [install_misaligned_phys hov hpos hg hmap hph] at h
    cases h

theorem Calm.install_leafAt (hm : t.Reachable others m) (hh : env.Honest) (hc : t.Calm env) (hmap : p.maps = true)
    (hp : p.phys.bits.toNat + pages * 4096 ≤ 2 ^ 48) (h : t.install p pages env m = .ok () n)
    (ha : p.Within pages a) : ∃ level, p.Largest t.format pages a level ∧ t.LeafAt n.memory a level := by
  obtain ⟨own, ho⟩ := hm.owns
  have hshape := hc.install_shape hh (serves_of_install h) hmap hp ho
  rw [h] at hshape
  obtain ⟨own', _, hshape⟩ := hshape
  exact hshape.leaf a ha

/-- every address of a mapped range has the largest leaf that holds it, and so the same one in all trees -/
theorem install_uses_largest (hm : t.Reachable others m) (hh : env.Honest) (hc : t.Calm env)
    (hmap : p.maps = true) (hp : p.phys.bits.toNat + pages * 4096 ≤ 2 ^ 48)
    (h : t.install p pages env m = .ok () n) (ha : p.Within pages a) (env₀ : Env σ) :
    (∃ l level, (t.lookup a : Act σ TableError (Option Leaf)) env₀ n = .ok (some l) n ∧
      p.Largest t.format pages a level ∧ l.order = levelOrder level) ∧
    ∀ (t' : Tree) (others' : Nat → Prop) (env' : Env σ) (m' n' : Machine σ), t'.format = t.format →
      t'.Reachable others' m' → env'.Honest → t'.Calm env' → t'.install p pages env' m' = .ok () n' →
      (t'.leaf? n'.memory a).map Leaf.order = (t.leaf? n.memory a).map Leaf.order := by
  obtain ⟨level, hlarge, l, hleaf, horder⟩ := Calm.install_leafAt hm hh hc hmap hp h ha
  refine ⟨⟨l, level, ?_, hlarge, horder⟩, fun t' others' env' m' n' hf hm' hh' hc' h' => ?_⟩
  · rw [t.lookup_ok, hleaf]
  · obtain ⟨level', hlarge', l', hleaf', horder'⟩ := Calm.install_leafAt hm' hh' hc' hmap hp h' ha
    rw [hf] at hlarge'
    obtain rfl := hlarge.unique hlarge'
    rw [hleaf, hleaf', Option.map_some, Option.map_some, horder, horder']

/-- a page, a block of 2 MB and another page -/
theorem install_uses_largest_block : ∃ (t : Tree) (m n : Machine Unit) (l : Leaf),
    t.install ⟨⟨0x1ff000⟩, ⟨0x3ff000⟩, .ofPerms .readWrite⟩ 514 (.offering (List.range' 2 1028)) m = .ok () n ∧
      t.leaf? n.memory ⟨0x300000⟩ = some l ∧ l.order = 9 := by
  have hh : (Env.offering (List.range' 2 1028) : Env Unit).Honest := Env.honest_behind (by decide)
  obtain ⟨t, m, hm, hf, hlive, _, _⟩ := Reachable.exists_empty .stage2 ()
  obtain ⟨own, ho⟩ := hm.owns
  have hs : Mapping.Serves ⟨⟨0x1ff000⟩, ⟨0x3ff000⟩, .ofPerms .readWrite⟩ t.format 514 := by
    rw [hf]
    exact ⟨fun _ => by decide, fun _ _ => by decide, by decide⟩
  have hspare := Machine.Spare.behind (fun i hi => (hlive i).mp hi) 1028
  obtain ⟨n, hn⟩ := Calm.install_room hh (.offering t _) hs ho (by rw [hf]; exact hspare.room)
  obtain ⟨⟨l, level, hlook, hlarge, horder⟩, _⟩ := install_uses_largest (a := ⟨0x300000⟩) hm hh (.offering t _) rfl
    (by decide) hn (by decide) (.offering [])
  have hblock : Mapping.Spans ⟨⟨0x1ff000⟩, ⟨0x3ff000⟩, .ofPerms .readWrite⟩ 514 1
      ((⟨0x300000⟩ : GuestAddr).block 1) := ⟨by decide, by decide, by decide⟩
  rw [hf] at hlarge
  have hle : level ≤ 1 := hlarge.le
  obtain rfl : level = 1 := by
    by_contra hne
    exact hlarge.greatest 1 (by omega) (by decide) hblock
  exact ⟨t, m, n, l, hn, (EStateM.Result.ok.inj hlook).1, horder⟩

end Tree

end NestedPaging
