import NestedPaging.Proofs.Tree.Installing
import NestedPaging.Proofs.Tree.Neutrality

/-!
# Output addresses that need more than 48 bits

An entry keeps 48 bits of an output address. `Mapping.cut` is the request that asks for no more.

* `update_cut`, `install_cut`   a request and its cut are served alike, so that no request is refused for its output;
* `output_modulo`       what is mapped is what was asked for modulo `2 ^ 48`, however a call ends.
-/

namespace NestedPaging

variable {σ : Type}

namespace Mapping
variable {f : Format} {p : Mapping} {order level : Nat}

/-- the same request without the bits of the output address that no entry keeps -/
def cut (p : Mapping) : Mapping := { p with phys := ⟨p.phys.bits &&& 0x0000ffffffffffff⟩ }

theorem toNat_cut (p : Mapping) : p.cut.phys.bits.toNat = p.phys.bits.toNat % 2 ^ 48 := by
  have hm : (0x0000ffffffffffff : Word).toNat = 2 ^ 48 - 1 := by decide
  show (p.phys.bits &&& 0x0000ffffffffffff).toNat = _
  rw [UInt64.toNat_and, hm, Nat.and_two_pow_sub_one_eq_mod]

theorem ext_cut {q : Mapping} (hg : q.gpa = p.gpa) (ha : q.attrs = p.attrs)
    (hp : q.phys.bits.toNat % 2 ^ 48 = p.phys.bits.toNat % 2 ^ 48) : q.cut = p.cut := by
  have hphys : q.cut.phys = p.cut.phys := Addr.ext_toNat (by rw [toNat_cut, toNat_cut, hp])
  exact (Mapping.mk.injEq ..).mpr ⟨hg, hphys, ha⟩

/-- what lies further on is cut alike -/
theorem cut_advance (p : Mapping) (d : Nat) : (p.cut.advance d).cut = (p.advance d).cut := by
  refine ext_cut rfl rfl ?_
  rw [toNat_phys_advance, toNat_phys_advance, toNat_cut]
  omega

/-- the bits that are cut off have no part in the alignment to a block -/
theorem isAligned_cut (p : Mapping) {n : Nat} (hn : n ≤ 36) :
    p.cut.phys.isAligned (orderBytes n) = p.phys.isAligned (orderBytes n) := by
  rw [Bool.eq_iff_iff, Addr.isAligned_iff _ (by omega), Addr.isAligned_iff _ (by omega), toNat_cut,
    Nat.dvd_mod_iff (Nat.pow_dvd_pow 2 (by omega))]

theorem fits_cut (hl : level ≤ 4) (p : Mapping) (order : Nat) : p.cut.fits order level = p.fits order level := by
  have ho : levelOrder level ≤ 36 := by
    rw [levelOrder_of_le hl]
    unfold indexBits
    omega
  unfold fits
  simp only [isAligned_cut p ho]
  rfl

theorem leafLevel_cut (p : Mapping) (order : Nat) {top : Nat} (ht : top ≤ 4) :
    p.cut.leafLevel order top = p.leafLevel order top := by
  induction top with
  | zero => rfl
  | succ top ih =>
    unfold leafLevel
    rw [fits_cut ht, ih (Nat.le_of_succ_le ht)]

/-- an entry does not tell a request from its cut -/
theorem entries_cut (p : Mapping) (f : Format) (split : Bool) (level count : Nat) :
    p.cut.entries f split level count = p.entries f split level count := by
  have hword : ∀ x : Word, (p.cut.phys.bits + x) &&& addressMask = (p.phys.bits + x) &&& addressMask := by
    intro x
    rw [← UInt64.toNat_inj, toNat_addressMask, toNat_addressMask, UInt64.toNat_add, UInt64.toNat_add, toNat_cut]
    omega
  unfold entries
  simp only [hword]
  rfl

theorem refusal?_cut (h : p.maps = true → 4096 ∣ p.phys.bits.toNat) (f : Format) (order : Nat) :
    f.refusal? p.cut order = f.refusal? p order := by
  have hcut : (p.cut.maps && !p.cut.phys.isPageAligned) = false := by
    rw [Bool.and_eq_false_imp, Bool.not_eq_false', Addr.isPageAligned_iff, toNat_cut, Nat.dvd_mod_iff (by decide)]
    exact h
  have hp : (p.maps && !p.phys.isPageAligned) = false := by
    rw [Bool.and_eq_false_imp, Bool.not_eq_false', Addr.isPageAligned_iff]
    exact h
  unfold Format.refusal?
  rw [hcut, hp]
  rfl

end Mapping

namespace Tree
variable {t : Tree} {others : Nat → Prop} {env : Env σ} {m n : Machine σ} {p : Mapping} {pages : Nat}

/-! ## no request is refused for its output -/

theorem update_cut (t : Tree) (h : p.maps = true → 4096 ∣ p.phys.bits.toNat) (order : Nat) :
    (t.update p.cut order : Act σ TableError Nat) = t.update p order := by
  have happly : (t.apply p.cut order : Act σ TableError Nat) = t.apply p order := by
    unfold apply
    rw [p.leafLevel_cut order t.format.topLeafLevel_le]
    simp only [Mapping.entries_cut]
    rfl
  unfold update
  rw [Mapping.refusal?_cut h, happly]

theorem installFrom_cut (t : Tree) (h : p.maps = true → 4096 ∣ p.phys.bits.toNat) :
    (t.installFrom p.cut pages : Act σ TableError Unit) = t.installFrom p pages := by
  induction pages using Nat.strong_induction_on generalizing p with
  | _ pages ih =>
    have haligned : ∀ {q : Mapping} (d : Nat), (q.maps = true → 4096 ∣ q.phys.bits.toNat) →
        (q.advance d).maps = true → 4096 ∣ (q.advance d).phys.bits.toNat := fun d hq hm => by
      rw [Mapping.toNat_phys_advance, Nat.dvd_mod_iff (by decide)]
      exact Nat.dvd_add (hq hm) (Nat.dvd_mul_left ..)
    have hcut : p.cut.maps = true → 4096 ∣ p.cut.phys.bits.toNat := fun hm => by
      rw [Mapping.toNat_cut, Nat.dvd_mod_iff (by decide)]
      exact h hm
    unfold installFrom
    rw [update_cut t h]
    by_cases h0 : pages = 0
    · rw [dif_pos h0, dif_pos h0]
    rw [dif_neg h0, dif_neg h0]
    congr 1
    funext covered
    have hlt : pages - 1 <<< covered < pages := by
      have hpos := Nat.two_pow_pos covered
      rw [Nat.one_shiftLeft]
      omega
    -- both rests are served as their common cut is
    rw [← ih _ hlt (haligned (1 <<< covered) hcut), p.cut_advance, ih _ hlt (haligned (1 <<< covered) h)]

theorem install_cut (t : Tree) (h : p.maps = true → 4096 ∣ p.phys.bits.toNat) (pages : Nat) :
    (t.install p.cut pages : Act σ TableError Unit) = t.install p pages := by
  unfold install
  rw [installFrom_cut t h]
  rfl

/-! ## what is mapped -/

section
variable (hh : env.Honest) (hc : t.Calm env) {own : Layout} (ho : t.Owns others own (t.tables m))
include hh hc ho

theorem Calm.update_modulo {order covered : Nat} (h : t.update p order env m = .ok covered n) :
    t.InstalledModulo p (2 ^ covered) m n := by
  obtain ⟨-, own', hmoved⟩ := Calm.moved hh hc ho h
  exact installedModulo_of_view (hmoved.view.trans (Mapping.effect_eq_ranged ..))

/-- an install that ends well was in order -/
theorem Calm.install_modulo (h : t.install p pages env m = .ok () n) : t.InstalledModulo p pages m n := by
  have hov : ¬ p.Overruns t.format pages := fun hov => by
    rw [install_overruns hov] at h
    cases h
  rcases Mapping.not_overruns hov with hs | ⟨hpos, hg | ⟨hg, hmap, hph⟩⟩
  · obtain ⟨_, hserved⟩ := hc.install_ok hh hs ho h
    exact installedModulo_of_view hserved.view
  · rw [install_misaligned hov hpos hg] at h
    cases h
  · rw [install_misaligned_phys hov hpos hg hmap hph] at h
    cases h

/-- an install that fails has served some of the first pages, or none -/
theorem Calm.install_error_modulo {e : Stop TableError} (h : t.install p pages env m = .error e n) :
    ∃ k ≤ pages, t.InstalledModulo p k m n := by
  have hnone : n = m → ∃ k ≤ pages, t.InstalledModulo p k m n := fun hn => by
    subst hn
    exact ⟨0, Nat.zero_le _, installedModulo_of_view (p.ranged_zero ..).symm⟩
  by_cases hov : p.Overruns t.format pages
  · rw [install_overruns hov] at h
    injection h with _ hn
    exact hnone hn.symm
  rcases Mapping.not_overruns hov with hs | ⟨hpos, hg | ⟨hg, hmap, hph⟩⟩
  · obtain ⟨_, k, hk, hserved⟩ := hc.install_error hh hs ho h
    exact ⟨k, Nat.le_of_lt hk, installedModulo_of_view hserved.view⟩
  · rw [install_misaligned hov hpos hg] at h
    injection h with _ hn
    exact hnone hn.symm
  · rw [install_misaligned_phys hov hpos hg hmap hph] at h
    injection h with _ hn
    exact hnone hn.symm

end

/-- Output addresses are cut to 48 bits, and nobody is told: a call ends as the call that asks for the cut addresses,
well if there is room for its tables, and what it has mapped then is what was asked for modulo `2 ^ 48`. So an address
has its output exactly if that lies below the end of the output space. -/
theorem output_modulo (hm : t.Reachable others m) (hh : env.Honest) (hc : t.Calm env) (p : Mapping) :
    ((p.maps = true → 4096 ∣ p.phys.bits.toNat) →
      (∀ order, t.update p order env m = t.update p.cut order env m) ∧
        ∀ pages, t.install p pages env m = t.install p.cut pages env m) ∧
    (∀ order, t.format.refusal? p order = none → env.Room t.format.rootLevel m →
      ∃ covered n, t.update p order env m = .ok covered n) ∧
    (∀ order covered n, t.update p order env m = .ok covered n → t.InstalledModulo p (2 ^ covered) m n) ∧
    (∀ order e n, t.update p order env m = .error e n → t.InstalledModulo p 0 m n) ∧
    (∀ pages, p.Serves t.format pages → env.Room (t.format.rootLevel * pages) m →
      ∃ n, t.install p pages env m = .ok () n) ∧
    (∀ pages n, t.install p pages env m = .ok () n → t.InstalledModulo p pages m n) ∧
    ∀ pages e n, t.install p pages env m = .error e n → ∃ k ≤ pages, t.InstalledModulo p k m n := by
  obtain ⟨own, ho⟩ := hm.owns
  refine ⟨fun h => ⟨fun order => by rw [update_cut t h], fun pages => by rw [install_cut t h]⟩, fun order hr hroom => ?_,
    fun order covered n => Calm.update_modulo hh hc ho, fun order e n he => ?_,
    fun pages hs => hc.install_room hh hs ho, fun pages n => hc.install_modulo hh ho,
    fun pages e n => hc.install_error_modulo hh ho⟩
  · obtain ⟨n, _, _, hn, -⟩ := hc.update_room hh ho hr (hroom.le (Nat.sub_le ..))
    exact ⟨_, n, hn⟩
  · intro a env'
    obtain ⟨before, found, hbefore, hfound, hsame⟩ := (Calm.update_error hh hc ho he).1.translation a env'
    refine ⟨before, found, hbefore, hfound, ?_⟩
    rw [if_neg fun hw => ?_]
    · exact hsame
    · obtain ⟨hle, hlt⟩ := hw
      omega

/-- of two pages mapped to the end of the output space, the second is mapped to its start -/
theorem output_modulo_pages : ∃ (t : Tree) (m n : Machine Unit) (l : Leaf),
    t.install ⟨⟨0⟩, ⟨0xfffffffff000⟩, .ofPerms .readWrite⟩ 2 (.offering (List.range' 2 6)) m = .ok () n ∧
      t.leaf? n.memory ⟨0x1000⟩ = some l ∧ (l.physAddr ⟨0x1000⟩).bits.toNat = 0 := by
  have hh : (Env.offering (List.range' 2 6) : Env Unit).Honest := Env.honest_behind (by decide)
  obtain ⟨t, m, hm, hf, hlive, _⟩ := Reachable.exists_empty .extended ()
  have hspare := Machine.Spare.behind (fun i hi => (hlive i).mp hi) 6
  have hs : Mapping.Serves ⟨⟨0⟩, ⟨0xfffffffff000⟩, .ofPerms .readWrite⟩ t.format 2 := by
    rw [hf]
    exact ⟨fun _ => by decide, fun _ _ => by decide, by decide⟩
  obtain ⟨_, _, _, _, hroom, hinstall, _⟩ := output_modulo hm hh (.offering t _)
    ⟨⟨0⟩, ⟨0xfffffffff000⟩, .ofPerms .readWrite⟩
  obtain ⟨n, hn⟩ := hroom 2 hs (by rw [hf]; exact hspare.room)
  obtain ⟨_, _, _, hfound, hmap⟩ := hinstall 2 n hn ⟨0x1000⟩ (.offering [])
  obtain ⟨l, rfl, hl, _⟩ := hmap
  exact ⟨t, m, n, l, hn, (EStateM.Result.ok.inj hfound).1, hl⟩

/-- an update of two blocks crosses the end: it ends well, and the second block lies where the output space starts -/
theorem update_crosses_limit : ∃ (t : Tree) (m n : Machine Unit) (l : Leaf),
    t.Reachable (fun _ => False) m ∧
      t.update ⟨⟨0⟩, ⟨0xffffffe00000⟩, .ofPerms .readWrite⟩ 10 (.offering (List.range' 2 2)) m = .ok 10 n ∧
      2 ^ 48 < (0xffffffe00000 : Word).toNat + 2 ^ 10 * 4096 ∧ t.leaf? n.memory ⟨0x200000⟩ = some l ∧
      (l.physAddr ⟨0x200000⟩).bits.toNat = 0 ∧ (l.physAddr ⟨0x200000⟩).bits.toNat ≠ 0xffffffe00000 + 0x200000 := by
  have hh : (Env.offering (List.range' 2 2) : Env Unit).Honest := Env.honest_behind (by decide)
  obtain ⟨t, m, hm, hf, hlive, _⟩ := Reachable.exists_empty .stage2 ()
  obtain ⟨own, ho⟩ := hm.owns
  have hspare := Machine.Spare.behind (fun i hi => (hlive i).mp hi) 2
  have hr : t.format.refusal? ⟨⟨0⟩, ⟨0xffffffe00000⟩, .ofPerms .readWrite⟩ 10 = none := by
    rw [hf]
    decide
  obtain ⟨n, _, _, hn, -⟩ := Calm.update_room hh (.offering t _) ho hr (hspare.room.le (by rw [hf]; decide))
  have hcovered : Mapping.coveredOrder ⟨⟨0⟩, ⟨0xffffffe00000⟩, .ofPerms .readWrite⟩ t.format 10 = 10 := by
    rw [hf]
    decide
  rw [hcovered] at hn
  obtain ⟨_, _, _, hfound, hmap⟩ := Calm.update_modulo hh (.offering t _) ho hn ⟨0x200000⟩ (.offering [])
  obtain ⟨l, rfl, hl, _⟩ := hmap
  have hzero : (l.physAddr ⟨0x200000⟩).bits.toNat = 0 := hl
  exact ⟨t, m, n, l, hm, hn, by decide, (EStateM.Result.ok.inj hfound).1, hzero, by rw [hzero]; decide⟩

end Tree

end NestedPaging
