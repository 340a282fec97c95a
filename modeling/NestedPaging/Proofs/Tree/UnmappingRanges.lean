import NestedPaging.Proofs.Tree.Unmapping

/-!
# What unmapping a range needs memory for

The updates of a range split a leaf only if its block lies in the range with some of its addresses and
not with others (`Mapping.Cuts`). At each level these are at most the block that the range begins in
and the one that it ends in. None is split twice: the table that takes the place of its leaf stays
there until the whole block is unmapped, and the range does not do that.

* `Cursor.cuts`          what is split at the cursor is such a block;
* `Revoked`              the tables of the splits so far, one for each of these blocks;
* `Alone.revokes`        an update adds those that are new;
* `Alone.install_asks`   so the whole range asks for two pages for each level of leaves.
-/

namespace NestedPaging

variable {σ : Type}

/-! ## a request that unmaps has no output -/

namespace Mapping
variable {p : Mapping} {order level : Nat}

/-- the request that maps every address to itself -/
def flat (p : Mapping) : Mapping := { p with phys := ⟨p.gpa.bits⟩ }

theorem flat_advance (p : Mapping) (pages : Nat) : (p.advance pages).flat = p.flat.advance pages := rfl

section
variable (hmap : p.maps = false)
include hmap

theorem fits_flat (order level : Nat) : p.flat.fits order level = p.fits order level := by
  have hflat : p.flat.maps = false := hmap
  unfold fits
  rw [hflat, hmap]
  rfl

theorem leafLevel_flat (order top : Nat) : p.flat.leafLevel order top = p.leafLevel order top := by
  induction top with
  | zero => rfl
  | succ top ih =>
    unfold leafLevel
    rw [fits_flat hmap, ih]

theorem entries_flat (f : Format) (split : Bool) (level count : Nat) :
    p.flat.entries f split level count = p.entries f split level count := by
  have hflat : p.flat.maps = false := hmap
  unfold entries
  rw [hflat, hmap]
  rfl

theorem refusal?_flat (f : Format) (order : Nat) : f.refusal? p.flat order = f.refusal? p order := by
  have hflat : p.flat.maps = false := hmap
  unfold Format.refusal?
  rw [hflat, hmap]
  rfl

end

end Mapping

namespace Tree
variable {t : Tree} {p : Mapping}

theorem update_flat (hmap : p.maps = false) (order : Nat) :
    (t.update p.flat order : Act σ TableError Nat) = t.update p order := by
  have hflat : p.flat.maps = false := hmap
  unfold update apply
  simp only [Mapping.refusal?_flat hmap, Mapping.leafLevel_flat hmap, Mapping.entries_flat hmap, hflat, hmap]
  rfl

theorem installFrom_flat (hmap : p.maps = false) (pages : Nat) :
    (t.installFrom p.flat pages : Act σ TableError Unit) = t.installFrom p pages := by
  induction pages using Nat.strong_induction_on generalizing p with
  | _ pages ih =>
    unfold installFrom
    by_cases h0 : pages = 0
    · rw [dif_pos h0, dif_pos h0]
    rw [dif_neg h0, dif_neg h0, update_flat hmap]
    refine congrArg _ (funext fun covered => ?_)
    have hpos := Nat.two_pow_pos covered
    rw [← p.flat_advance]
    exact ih _ (by rw [Nat.one_shiftLeft]; omega) hmap

theorem install_flat (hmap : p.maps = false) (pages : Nat) :
    (t.install p.flat pages : Act σ TableError Unit) = t.install p pages := by
  unfold install
  rw [installFrom_flat hmap]
  rfl

end Tree

/-! ## the blocks that a range cuts -/

namespace Mapping
variable {p q : Mapping} {f : Format} {pages d order l e top : Nat} {r : Region} {a : GuestAddr}
  {taken : List Region}

/-- the range has some addresses of the block of a table, and not all of them -/
structure Cuts (p : Mapping) (pages : Nat) (r : Region) : Prop where
  meets : ∃ x, p.gpa.bits.toNat ≤ x ∧ x < p.gpa.bits.toNat + pages * 4096 ∧ x / 2 ^ blockBits (r.level + 1) = r.block
  parts : ¬ (p.gpa.bits.toNat ≤ r.block * 2 ^ blockBits (r.level + 1) ∧
    (r.block + 1) * 2 ^ blockBits (r.level + 1) ≤ p.gpa.bits.toNat + pages * 4096)

/-- the blocks that a range begins and ends in -/
def ends (p : Mapping) (pages top : Nat) : List Region :=
  (List.range top).flatMap fun l => [⟨l, p.gpa.bits.toNat / 2 ^ blockBits (l + 1)⟩,
    ⟨l, (p.gpa.bits.toNat + pages * 4096 - 1) / 2 ^ blockBits (l + 1)⟩]

theorem length_ends (p : Mapping) (pages top : Nat) : (p.ends pages top).length = 2 * top := by
  unfold ends
  rw [List.length_flatMap]
  simp only [List.length_cons, List.length_nil, List.map_const', List.sum_replicate, List.length_range,
    smul_eq_mul, Nat.mul_comm]

/-- a block that the range cuts has its first address or its last one -/
theorem Cuts.mem_ends (h : p.Cuts pages r) (hl : r.level < top) : r ∈ p.ends pages top := by
  obtain ⟨l, x⟩ := r
  obtain ⟨⟨y, hfrom, hto, hy⟩, hparts⟩ := h
  have hpos := Nat.two_pow_pos (blockBits (l + 1))
  obtain ⟨hlow, hhigh⟩ := (Nat.div_eq_iff hpos).mp hy
  refine List.mem_flatMap.mpr ⟨l, List.mem_range.mpr hl, ?_⟩
  rw [List.mem_cons, List.mem_singleton, Region.mk.injEq, Region.mk.injEq]
  dsimp only at hlow hhigh hparts
  by_cases hstart : p.gpa.bits.toNat ≤ x * 2 ^ blockBits (l + 1)
  · refine .inr ⟨rfl, ((Nat.div_eq_iff hpos).mpr ?_).symm⟩
    rw [Nat.add_mul, Nat.one_mul] at hparts
    omega
  · exact .inl ⟨rfl, ((Nat.div_eq_iff hpos).mpr (by omega)).symm⟩

/-- so there are at most two of them at each level -/
theorem length_le_of_cuts (hn : taken.Nodup) (h : ∀ r ∈ taken, r.level < top ∧ p.Cuts pages r) :
    taken.length ≤ 2 * top := by
  rw [← p.length_ends pages top]
  exact (List.subperm_of_subset hn fun r hr => (h r hr).2.mem_ends (h r hr).1).length_le

theorem Serves.flat (hs : p.Serves f pages) : p.flat.Serves f pages :=
  ⟨hs.gpa, fun hpos _ => hs.gpa hpos, hs.holds⟩

theorem Serves.cursor_flat (hs : p.Serves f pages) (hflat : p.phys.bits.toNat = p.gpa.bits.toNat) (hd : d < pages) :
    p.Cursor f pages d (p.advance d) (min (pages - d).log2 f.maxOrder) := by
  refine hs.cursor ?_ hd
  rw [hflat]
  exact Nat.le_trans hs.holds (Nat.pow_le_pow_right Nat.two_pos f.inputBits_le)

namespace Cursor
variable (h : p.Cursor f pages d q order)
include h

/-- what is larger than the entries at the cursor is not all in the range -/
theorem cuts (hflat : p.phys.bits.toNat = p.gpa.bits.toNat) (hw : p.Uncut f pages d)
    (hlt : q.leafLevel order f.topLeafLevel < l + 1) (htop : l + 1 ≤ f.topLeafLevel) :
    p.Cuts pages ⟨l, q.gpa.block (l + 1)⟩ := by
  have hroom := h.run_le
  have hpos := Nat.two_pow_pos (q.coveredOrder f order)
  refine ⟨⟨q.gpa.bits.toNat, ?_, ?_, rfl⟩, fun hall => ?_⟩
  · rw [h.gpa]
    exact Nat.le_add_right ..
  · rw [h.gpa]
    omega
  · have hspans : p.Spans pages (l + 1) (q.gpa.block (l + 1)) := by
      refine ⟨hall.1, hall.2, ?_⟩
      rw [hflat, Int.sub_self]
      exact Int.dvd_zero _
    have hle := h.le_of_spans hw hspans htop (Nat.lt_mul_of_div_lt (Nat.lt_succ_self _) (Nat.two_pow_pos _))
      (Nat.lt_of_le_of_lt (Nat.div_mul_le_self ..) (Nat.lt_add_of_pos_right (Nat.two_pow_pos _)))
    exact absurd hlt (Nat.not_lt.mpr hle)

/-- and no run has all of a block that the range cuts -/
theorem not_covers (hl : l + 1 ≤ 4) (ha : a.bits.toNat < 2 ^ 48) (hcut : p.Cuts pages ⟨l, a.block (l + 1)⟩) :
    ∃ b : GuestAddr, b.block (l + 1) = a.block (l + 1) ∧ ¬ q.Covers (q.coveredOrder f order) b := by
  by_contra hall
  simp only [not_exists, not_and, not_not] at hall
  have hpos := Nat.two_pow_pos (blockBits (l + 1))
  have hend : a.block (l + 1) * 2 ^ blockBits (l + 1) + 2 ^ blockBits (l + 1) ≤ 2 ^ 48 :=
    add_le_of_dvd (Nat.dvd_mul_left ..) (two_pow_blockBits_dvd hl)
      (Nat.lt_of_le_of_lt (Nat.div_mul_le_self ..) ha)
  have hin : ∀ x, a.block (l + 1) * 2 ^ blockBits (l + 1) ≤ x →
      x < a.block (l + 1) * 2 ^ blockBits (l + 1) + 2 ^ blockBits (l + 1) →
      q.gpa.bits.toNat ≤ x ∧ x < q.gpa.bits.toNat + 2 ^ (12 + q.coveredOrder f order) := by
    intro x hlow hhigh
    have hx : (UInt64.ofNat x).toNat = x := UInt64.toNat_ofNat_of_lt' (by simp only [UInt64.size]; omega)
    have hcov := hall ⟨UInt64.ofNat x⟩ (by
      show (UInt64.ofNat x).toNat / _ = _
      rw [hx]
      exact (Nat.div_eq_iff hpos).mpr (by omega))
    unfold Covers at hcov
    rwa [hx] at hcov
  have hfirst := hin _ (Nat.le_refl _) (by omega)
  have hlast := hin (a.block (l + 1) * 2 ^ blockBits (l + 1) + 2 ^ blockBits (l + 1) - 1) (by omega) (by omega)
  have hgpa := h.gpa
  have hstop := h.run_stop
  have hroom := Nat.mul_le_mul_right 4096 h.run_le
  refine hcut.parts ⟨by dsimp only; omega, ?_⟩
  rw [Nat.add_mul, Nat.one_mul]
  dsimp only
  omega

end Cursor

end Mapping

theorem Format.toNat_lt_of_inRange {f : Format} {a : GuestAddr} (h : f.inRange a = true) : a.bits.toNat < 2 ^ 48 := by
  have hlt : a.bits.toNat < 2 ^ f.inputBits := by
    rw [← Nat.one_shiftLeft]
    exact of_decide_eq_true h
  exact Nat.lt_of_lt_of_le hlt (Nat.pow_le_pow_right Nat.two_pos f.inputBits_le)

/-! ## the tables of the splits -/

/-- at last a page was asked for and not offered, when fewer than `d` had been added -/
def Env.RanOut (env : Env σ) (d : Nat) (m n : Machine σ) : Prop :=
  ∃ e k, e < d ∧ m.Asked (e + 1) n ∧ m.Adds e k ∧ (env.supply k).2 = none

namespace Tree
variable {t : Tree} {others : Nat → Prop} {env : Env σ} {own own' : Layout} {T : Tables} {m₀ m k n : Machine σ}
  {p q : Mapping} {pages d order l e level target : Nat} {a : GuestAddr} {r : Region} {taken : List Region}

/-- a table has the place `r` -/
def Occupied (t : Tree) (m : Memory) (r : Region) : Prop :=
  ∃ b c, t.format.inRange b = true ∧ b.block (r.level + 1) = r.block ∧ ⟨c, r.level⟩ ∈ t.path m b

/-- the places of `e` tables on the way of `a`, from level `l` up -/
def places (a : GuestAddr) (l e : Nat) : List Region := (List.range' l e).map fun k => ⟨k, a.block (k + 1)⟩

theorem length_places (a : GuestAddr) (l e : Nat) : (places a l e).length = e := by
  rw [places, List.length_map, List.length_range']

theorem mem_places : r ∈ places a l e ↔ ∃ j, (l ≤ j ∧ j < l + e) ∧ r = ⟨j, a.block (j + 1)⟩ := by
  unfold places
  simp only [List.mem_map, List.mem_range'_1, eq_comm]

/-- what is split is not split already -/
theorem SplitLevel.nodup_places (hs : t.SplitLevel T.memory a target level) (h : t.Owns others own T)
    (hn : taken.Nodup) (hocc : ∀ r ∈ taken, t.Occupied T.memory r) (hl : target ≤ l) (he : l + e = level) :
    (taken ++ places a l e).Nodup := by
  refine List.nodup_append.mpr ⟨hn, .map (fun _ _ e => congrArg Region.level e) List.nodup_range', ?_⟩
  rintro r hr _ hplace rfl
  obtain ⟨j, ⟨hlow, hhigh⟩, rfl⟩ := mem_places.mp hplace
  obtain ⟨b, c, hb, hblock, hon⟩ := hocc _ hr
  have hroot : t.format.rootLevel ≤ 4 := Nat.le_succ_of_le t.format.rootLevel_le
  have hon' : ⟨c, j⟩ ∈ t.path T.memory a := t.format.mem_path_of_block (r := ⟨c, j⟩) hroot hblock hon
  exact hs.not_mem_path h (Nat.le_trans hl hlow) (he ▸ hhigh) c hon'

/-- and lies in blocks that the range cuts -/
theorem SplitLevel.cuts_places {memory : Memory}
    (hs : t.SplitLevel memory q.gpa (q.leafLevel order t.format.topLeafLevel) level)
    (hcur : p.Cursor t.format pages d q order) (hflat : p.phys.bits.toNat = p.gpa.bits.toNat)
    (hw : p.Uncut t.format pages d) (hl : q.leafLevel order t.format.topLeafLevel ≤ l) (he : l + e = level) :
    ∀ r ∈ places q.gpa l e, r.level < t.format.topLeafLevel ∧ p.Cuts pages r := by
  intro r hmem
  have htop := hs.top
  obtain ⟨j, ⟨hlow, hhigh⟩, rfl⟩ := mem_places.mp hmem
  have hj : j + 1 ≤ t.format.topLeafLevel := by omega
  exact ⟨hj, hcur.cuts hflat hw (by omega) hj⟩

/-- splits leave the tables that there are, and fill the places below the leaf -/
theorem Occupied.splitTo (hs : t.SplitTo a level target own (t.tables m) own' (t.tables k))
    (h : t.Owns others own (t.tables m)) (ha : t.format.inRange a = true) (he : target + e = level)
    (hocc : ∀ r ∈ taken, t.Occupied m.memory r) : ∀ r ∈ taken ++ places a target e, t.Occupied k.memory r := by
  intro r hmem
  rcases List.mem_append.mp hmem with hmem | hmem
  · obtain ⟨b, c, hb, hblock, hon⟩ := hocc r hmem
    exact ⟨b, c, hb, hblock, (hs.grown.quiet h).path hb hon⟩
  · obtain ⟨j, ⟨hlow, hhigh⟩, rfl⟩ := mem_places.mp hmem
    obtain ⟨c, hc⟩ := hs.exists_table h ha hlow (he ▸ hhigh)
    exact ⟨a, c, ha, rfl, hc⟩

/-- the table of a block that the range cuts stays where it is -/
theorem Occupied.lands (hocc : t.Occupied k.memory r) (h : t.Owns others own (t.tables k))
    (hcur : p.Cursor t.format pages d q order) (hl : t.Lands (fun _ _ => False) q order own k n)
    (hlevel : r.level + 1 ≤ 4) (hcut : p.Cuts pages r) : t.Occupied n.memory r := by
  obtain ⟨b, c, hb, hblock, hon⟩ := hocc
  rcases hl.path h hcur.accepts hb hon with hon' | hall
  · exact ⟨b, c, hb, hblock, hon'⟩
  · obtain ⟨g, hg, hout⟩ := hcur.not_covers hlevel (Format.toNat_lt_of_inRange hb) (hblock ▸ hcut)
    exact absurd (hall g hg) hout

/-- after `d` pages of the request a page was drawn for each table that took the place of a leaf, and no
two of these have the same place -/
structure Revoked (t : Tree) (others : Nat → Prop) (p : Mapping) (pages : Nat) (m₀ : Machine σ) (d : Nat) (own : Layout)
    (n : Machine σ) : Prop where
  owns : t.Owns others own (t.tables n)
  uncut : p.Uncut t.format pages d
  splits : ∃ taken : List Region, taken.Nodup ∧
    (∀ r ∈ taken, r.level < t.format.topLeafLevel ∧ p.Cuts pages r) ∧ (∀ r ∈ taken, t.Occupied n.memory r) ∧
    m₀.Drew taken.length n ∧ m₀.Adds taken.length n

theorem Revoked.zero (p : Mapping) (pages : Nat) (h : t.Owns others own (t.tables m)) :
    t.Revoked others p pages m 0 own m :=
  ⟨h, .zero p t.format pages, [], .nil, nofun, nofun, .of_same rfl, .refl 0 m⟩

section
variable (hh : env.Honest) (ha : env.Alone) (hs : p.Serves t.format pages)
  (hflat : p.phys.bits.toNat = p.gpa.bits.toNat) (hmap : p.maps = false)
include hh ha hs hflat hmap

/-- an update further on draws a page for each of its splits -/
theorem Alone.revokes (hd : d < pages) (hJ : t.Revoked others p pages m₀ d own m) :
    Yields env (fun _ n => env.RanOut (2 * t.format.topLeafLevel) m₀ n) own
      (fun c own' n => d + 2 ^ c ≤ pages ∧ t.Revoked others p pages m₀ (d + 2 ^ c) own' n)
      (t.update (p.advance d) (min (pages - d).log2 t.format.maxOrder) env m) := by
  have hcur := hs.cursor_flat hflat hd
  have hr := hs.refusal?_eq_none hd (Nat.min_le_right (pages - d).log2 t.format.maxOrder)
  obtain ⟨taken, hn, hcut, hocc, hdrew, hadds⟩ := hJ.splits
  obtain ⟨level, hlevel⟩ := t.exists_splitLevel m.memory (p.advance d).gpa
    ((p.advance d).leafLevel_le (min (pages - d).log2 t.format.maxOrder) t.format.topLeafLevel)
  have hsplits := Alone.update_splits hJ.owns hr hmap hh ha hlevel
  have hplaces := fun {l e} => hlevel.cuts_places (l := l) (e := e) hcur hflat hJ.uncut
  generalize (p.advance d).leafLevel (min (pages - d).log2 t.format.maxOrder) t.format.topLeafLevel = target
    at hlevel hsplits hplaces
  have hall : ∀ {l e}, target ≤ l → l + e = level → ∀ r ∈ taken ++ places (p.advance d).gpa l e,
      r.level < t.format.topLeafLevel ∧ p.Cuts pages r := fun hl he r hmem =>
    (List.mem_append.mp hmem).elim (hcut r) (hplaces hl he r)
  refine hsplits.mono ?_ ?_
  · rintro own' n ⟨e, j, k, hj, hlt, _, hasked, hadds', hnone⟩
    have hnew := hlevel.nodup_places (l := j - 1) (e := e + 1) hJ.owns hn hocc (by omega) (by omega)
    have hle := Mapping.length_le_of_cuts hnew (hall (by omega) (by omega))
    rw [List.length_append, length_places] at hle
    exact ⟨taken.length + e, k, by omega, hdrew.asked.trans hasked, hadds.trans hadds', hnone⟩
  · rintro _ own' n ⟨rfl, hmore, k, hsplit, hlands⟩
    have hplace : target + (level - target) = level := Nat.add_sub_cancel' hlevel.le
    have howns := (hsplit.grown.quiet hJ.owns).owns
    have hcuts := hall (Nat.le_refl _) hplace
    have hfilled := Occupied.splitTo hsplit hJ.owns hcur.accepts.inRange hplace hocc
    refine ⟨hcur.run_le, hlands.owns howns hcur.accepts, hcur.uncut hJ.uncut,
      taken ++ places (p.advance d).gpa target (level - target),
      hlevel.nodup_places hJ.owns hn hocc (Nat.le_refl _) hplace, hcuts, fun r hmem => ?_, ?_, ?_⟩
    · have htop := t.format.topLeafLevel_le
      have hr4 := (hcuts r hmem).1
      exact (hfilled r hmem).lands howns hcur hlands (by omega) (hcuts r hmem).2
    · rw [List.length_append, length_places]
      exact hdrew.trans hmore
    · rw [List.length_append, length_places]
      obtain ⟨pages', hlen, hin'⟩ := hsplit.grown.adds
      exact hadds.trans ⟨pages', hlen, fun i hi => hin' i ((congrFun hlands.inUse i).mp hi)⟩

theorem Alone.install_revoked (h : t.Owns others own (t.tables m)) :
    Yields env (fun _ n => env.RanOut (2 * t.format.topLeafLevel) m n) own
      (fun _ => t.Revoked others p pages m pages) (t.install p pages env m) := by
  have hloop := install_yields (I := fun _ _ n => env.RanOut (2 * t.format.topLeafLevel) m n) hs.not_overruns
    (fun d own k hd hJ => Alone.revokes hh ha hs hflat hmap hd hJ) (.zero p pages h)
  exact hloop.mono (fun _ _ hk => hk.choose_spec.2) fun _ _ _ => id

end

section
variable (hm : t.Reachable others m) (hh : env.Honest) (ha : env.Alone) (hmap : p.maps = false)
include hm hh ha hmap

theorem Alone.install_asks (pages : Nat) :
    ∃ d ≤ 2 * t.format.topLeafLevel, m.Asked d ((t.install p pages : Act σ TableError Unit).after env m) := by
  have hnone : ∃ d ≤ 2 * t.format.topLeafLevel, m.Asked d m := ⟨0, Nat.zero_le _, [], .refl rfl, rfl⟩
  by_cases hov : p.Overruns t.format pages
  · rw [Act.after_of_error (install_overruns hov env m)]
    exact hnone
  rcases Mapping.not_overruns hov with hs | ⟨hpos, hg | ⟨_, hno, _⟩⟩
  · obtain ⟨own, ho⟩ := hm.owns
    have hrun := Alone.install_revoked (p := p.flat) hh ha hs.flat rfl hmap ho
    rw [install_flat hmap] at hrun
    unfold Act.after
    match t.install p pages env m, hrun with
    | .ok () n, ⟨own', _, hrev⟩ =>
      obtain ⟨taken, hn, hcut, _, hdrew, _⟩ := hrev.splits
      exact ⟨taken.length, Mapping.length_le_of_cuts hn hcut, hdrew.asked⟩
    | .error (.failed _) n, ⟨_, _, _, e, _, he, hasked, _⟩ => exact ⟨e + 1, he, hasked⟩
    | .error .stuck n, ⟨hstuck, _⟩ => exact absurd (Calm.of_alone (t := t) ha).paced hstuck
  · rw [Act.after_of_error (install_misaligned hov hpos hg env m)]
    exact hnone
  · rw [hmap] at hno
    cases hno

theorem Alone.install_room (hs : p.Serves t.format pages) (hroom : env.Room (2 * t.format.topLeafLevel) m) :
    ∃ n, t.install p pages env m = .ok () n := by
  obtain ⟨own, ho⟩ := hm.owns
  have hrun := Alone.install_revoked (p := p.flat) hh ha hs.flat rfl hmap ho
  rw [install_flat hmap] at hrun
  match t.install p pages env m, hrun with
  | .ok () n, _ => exact ⟨n, rfl⟩
  | .error (.failed _) n, ⟨_, _, _, e, k, he, _, hadds, hnone⟩ => exact absurd hnone (hroom e k he hadds)
  | .error .stuck n, ⟨hstuck, _⟩ => exact absurd (Calm.of_alone (t := t) ha).paced hstuck

/-- who unmaps needs pages for the splits of a larger leaf, one for each level down to the entries, and
else none and no allocator; no table comes under an absent entry; and a range of any length asks for at
most two pages for each level of leaves -/
theorem unmapping_draws_splits :
    (∀ order, t.format.refusal? p order = none →
      (∀ level, p.leafLevel order t.format.topLeafLevel < level → level ≤ t.format.topLeafLevel →
        t.LeafAt m.memory p.gpa level →
        (∀ c n, t.update p order env m = .ok c n → m.Drew (level - p.leafLevel order t.format.topLeafLevel) n) ∧
        (env.Room (level - p.leafLevel order t.format.topLeafLevel) m →
          ∃ n, t.update p order env m = .ok (p.coveredOrder t.format order) n)) ∧
      ((∀ level, p.leafLevel order t.format.topLeafLevel < level → level ≤ t.format.topLeafLevel →
        ¬ t.LeafAt m.memory p.gpa level) →
        ∀ env' : Env σ, ∃ n, t.update p order env' m = .ok (p.coveredOrder t.format order) n ∧ m.Drew 0 n) ∧
      ∀ b r, t.format.inRange b = true → t.leaf? m.memory b = none →
        r ∈ t.path ((t.update p order : Act σ TableError Nat).after env m).memory b → r ∈ t.path m.memory b) ∧
    ∀ pages, (∃ d ≤ 2 * t.format.topLeafLevel, m.Asked d ((t.install p pages : Act σ TableError Unit).after env m)) ∧
      (p.Serves t.format pages → env.Room (2 * t.format.topLeafLevel) m → ∃ n, t.install p pages env m = .ok () n) := by
  obtain ⟨own, ho⟩ := hm.owns
  refine ⟨fun order hr => ⟨fun level hlt htop hleaf => ?_, fun hno env' => ?_, fun b r hb hnone hin => ?_⟩,
    fun pages => ⟨Alone.install_asks hm hh ha hmap pages, Alone.install_room hm hh ha hmap⟩⟩
  · have hlevel : t.SplitLevel m.memory p.gpa (p.leafLevel order t.format.topLeafLevel) level := by
      refine ⟨Nat.le_of_lt hlt, htop, fun l _ hl => ⟨fun h => h.unique hleaf hl htop, ?_⟩⟩
      rintro rfl
      exact hleaf
    have hrun := Alone.update_splits ho hr hmap hh ha hlevel
    cases hup : t.update p order env m with
    | ok c n =>
      rw [hup] at hrun
      obtain ⟨own', _, rfl, hdrew, _⟩ := hrun
      refine ⟨fun c' n' h => ?_, fun _ => ⟨n, rfl⟩⟩
      cases h
      exact hdrew
    | error e n =>
      rw [hup] at hrun
      refine ⟨fun c' n' h => (nomatch h), fun hroom => ?_⟩
      match e, hrun with
      | .failed _, ⟨_, _, _, e, j, k, hj, hlt', _, _, hadds, hnone⟩ => exact absurd hnone (hroom e k (by omega) hadds)
      | .stuck, ⟨hstuck, _⟩ => exact absurd (Calm.of_alone (t := t) ha).paced hstuck
  · have htop := p.leafLevel_le order t.format.topLeafLevel
    have hplace : t.SplitLevel m.memory p.gpa (p.leafLevel order t.format.topLeafLevel)
        (p.leafLevel order t.format.topLeafLevel) := by
      refine ⟨Nat.le_refl _, htop, fun l hlt hl => ⟨fun h => absurd h (hno l hlt hl), ?_⟩⟩
      rintro rfl
      exact absurd hlt (Nat.lt_irrefl _)
    exact update_without_pages ho hr hmap hplace env'
  · exact Alone.update_path ho hr hmap hh ha hb hnone hin

end

/-- a page in a block of 1 GB -/
theorem unmapping_draws_splits_block : ∃ (t : Tree) (m n : Machine Unit) (d : Nat),
    t.update ⟨⟨0x1000⟩, ⟨0⟩, .ofPerms .none⟩ 0 (.offering (List.range' 2 3)) m = .ok 0 n ∧ m.Drew 2 n ∧ d ≤ 4 ∧
      m.Asked d ((t.install ⟨⟨0x1000⟩, ⟨0⟩, .ofPerms .none⟩ 600 : Act Unit TableError Unit).after
        (.offering (List.range' 2 3)) m) := by
  have hh : (Env.offering (List.range' 2 3) : Env Unit).Honest := Env.honest_behind (by decide)
  have ha : (Env.offering (List.range' 2 3) : Env Unit).Alone := fun m => ⟨m.client, rfl⟩
  obtain ⟨t, m, hm, hf, hblock, hroom⟩ := exists_largeBlock 2 (by decide) ()
  have hleaf := hblock ⟨0x1000⟩ (by decide)
  obtain ⟨hall, hrange⟩ := unmapping_draws_splits (p := ⟨⟨0x1000⟩, ⟨0⟩, .ofPerms .none⟩) hm hh ha rfl
  obtain ⟨hlarge, _⟩ := hall 0 (by rw [hf]; decide)
  obtain ⟨hdrew, hok⟩ := hlarge 2 (by rw [hf]; decide) (by rw [hf]; decide) hleaf
  obtain ⟨n, hn⟩ := hok (by rw [hf]; exact hroom)
  obtain ⟨⟨d, hd, hasked⟩, _⟩ := hrange 600
  have htwo := hdrew _ _ hn
  rw [hf] at hd htwo hn
  exact ⟨t, m, n, d, hn, htwo, hd, hasked⟩

end Tree

end NestedPaging
