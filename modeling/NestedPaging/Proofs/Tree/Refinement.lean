import NestedPaging.Proofs.Tree.Calm

/-!
# A tree is a map

An update that ends well maps its run to the output addresses that were asked for, with the
attributes that the format keeps of those asked for, or unmaps the run; every other address keeps
what it had, whatever leaves were split and tables detached on the way.
-/

namespace NestedPaging

variable {σ : Type}

namespace Tree
variable {t : Tree} {others : Nat → Prop} {env : Env σ} {m n : Machine σ} {p : Mapping}
  {order covered : Nat}

theorem lookup_ok (t : Tree) (a : GuestAddr) (env : Env σ) (m : Machine σ) :
    (t.lookup a : Act σ TableError (Option Leaf)) env m = .ok (t.leaf? m.memory a) m := rfl

theorem accepts_of_update (h : t.update p order env m = .ok covered n) :
    t.format.refusal? p order = none := by
  cases hr : t.format.refusal? p order with
  | none => rfl
  | some e =>
    rw [update_refused hr] at h
    cases h

theorem Calm.moved (hh : env.Honest) (hc : t.Calm env) {own : Layout}
    (ho : t.Owns others own (t.tables m)) (h : t.update p order env m = .ok covered n) :
    covered = p.coveredOrder t.format order ∧
      ∃ own', t.Moved others own (t.tables m) [(p, covered)] own' (t.tables n) := by
  have hs := Calm.steps hh hc own (t.tables m) [] p order own m (accepts_of_update h) (.refl ho)
  rw [h] at hs
  obtain ⟨own', _, hcov, hm⟩ := hs
  exact ⟨hcov, own', hm⟩

/-- after an update that maps, the addresses that it covers have leaves -/
theorem Calm.exists_leaf {a : GuestAddr} (hh : env.Honest) (hc : t.Calm env) {own : Layout}
    (ho : t.Owns others own (t.tables m)) (h : t.update p order env m = .ok covered n)
    (hmaps : p.maps = true) (ha : p.Covers covered a) :
    ∃ l, t.leaf? n.memory a = some l ∧
      l.translation a = (p.output a, t.format.stored m.splitExecute p.attrs) := by
  obtain ⟨_, _, hmoved⟩ := Calm.moved hh hc ho h
  have hview : (t.leaf? n.memory a).map (Leaf.translation a)
      = p.effect t.format m.splitExecute covered (t.view m.memory) a := congrFun hmoved.view a
  rw [Mapping.effect, if_pos ha, if_pos hmaps] at hview
  exact Option.map_eq_some_iff.mp hview

/-- the effect of an update, seen by lookups before and after it -/
theorem update_refines (hm : t.Reachable others m) (hh : env.Honest) (hc : t.Calm env)
    (h : t.update p order env m = .ok covered n)
    (hp : p.maps = true → p.phys.bits.toNat + 2 ^ covered * 4096 ≤ 2 ^ 48) :
    covered ≤ order ∧ t.format.holds p.gpa (2 ^ covered) = true ∧
    ∀ a : GuestAddr, ∃ before found,
      (t.lookup a : Act σ TableError (Option Leaf)) env m = .ok before m ∧
      (t.lookup a : Act σ TableError (Option Leaf)) env n = .ok found n ∧
      if p.Covers covered a then
        if p.maps then
          ∃ l, found = some l ∧
            (l.physAddr a).bits.toNat
              = p.phys.bits.toNat + (a.bits.toNat - p.gpa.bits.toNat) ∧
            ∀ level, l.attrs = t.format.attrs (t.format.leafBits m.splitExecute level p.attrs)
        else found = none
      else found.map (Leaf.translation a) = before.map (Leaf.translation a) := by
  obtain ⟨own, ho⟩ := hm.owns
  obtain ⟨hcov, own', hmoved⟩ := Calm.moved hh hc ho h
  have hacc := Format.accepts_of_refusal? (accepts_of_update h)
  have htop := t.format.topLeafLevel_le
  have hfit := p.fits_leafLevel hacc htop
  have hl4 := Nat.le_trans (p.leafLevel_le order _) htop
  refine ⟨?_, ?_, fun a => ⟨_, _, t.lookup_ok a env m, t.lookup_ok a env n, ?_⟩⟩
  · rw [hcov]
    exact Mapping.covered_le ..
  · rw [hcov]
    exact Mapping.holds_covered hl4 hfit hacc
  · have hv : (t.leaf? n.memory a).map (Leaf.translation a)
        = p.effect t.format m.splitExecute covered (t.view m.memory) a := congrFun hmoved.view a
    unfold Mapping.effect at hv
    by_cases hcv : p.Covers covered a
    · rw [if_pos hcv] at hv ⊢
      by_cases hmap : p.maps = true
      · rw [if_pos hmap] at hv ⊢
        obtain ⟨l, hl, htr⟩ := Option.map_eq_some_iff.mp hv
        obtain ⟨hout, hattrs⟩ := Prod.mk.inj htr
        refine ⟨l, hl, ?_, fun level => ?_⟩
        · have hroom := hp hmap
          obtain ⟨hle, hlt⟩ := hcv
          rw [hout, Mapping.toNat_output hle, Nat.mod_eq_of_lt]
          rw [Nat.pow_add] at hlt
          omega
        · rw [hattrs, t.format.attrs_leafBits hmap]
      · rw [if_neg hmap] at hv ⊢
        exact Option.map_eq_none_iff.mp hv
    · rw [if_neg hcv] at hv ⊢
      exact hv

/-- a 2 MB block mapped in an empty tree -/
theorem update_refines_block : ∃ (t : Tree) (m n : Machine Unit) (l : Leaf),
    t.update ⟨⟨0⟩, ⟨0x200000⟩, .ofPerms .readWrite⟩ 9 (.offering [1, 2]) m = .ok 9 n ∧
      t.leaf? n.memory ⟨0x1000⟩ = some l ∧ (l.physAddr ⟨0x1000⟩).bits.toNat = 0x201000 := by
  have hh : (Env.offering [1, 2] : Env Unit).Honest := Env.honest_offering (by decide)
  obtain ⟨t, m, hm, hf, hlive, _, h0⟩ := Reachable.exists_empty .stage2 ()
  obtain ⟨own, ho⟩ := hm.owns
  have hnext : (Env.offering [1, 2] : Env Unit).supply (t.enterWalk m)
      = (t.enterWalk m, some (.ofFrame 2)) :=
    (Env.offering_used (m := t.enterWalk m) ((hlive 1).mpr rfl)).trans
      (Env.offering_free fun h => absurd ((hlive 2).mp h) (by decide))
  have hroot' : own t.root = some ⟨1 + 1, 0⟩ := by rw [ho.root, hf]; rfl
  obtain ⟨c, k', hchild⟩ := Calm.child_offered (a := ⟨0⟩) hh (.offering t [1, 2])
    ((alike_enterWalk m).tables ▸ ho) hnext hroot' (h0 _ (tableIndex_lt _ _))
  have hreach := Rely.reach_below_root t (.offering [1, 2]) ⟨0⟩ 1 .grow (t.enterWalk m)
    (by rw [hf]; rfl)
  rw [Act.map_apply, hchild] at hreach
  obtain ⟨n, hn⟩ := update_of_reach ⟨⟨0⟩, ⟨0x200000⟩, .ofPerms .readWrite⟩ 9
    (by rw [hf]; decide) (by rw [hf]; exact hreach)
  rw [hf] at hn
  obtain ⟨_, _, hall⟩ := update_refines hm hh (.offering t [1, 2]) hn (fun _ => by decide)
  obtain ⟨_, _, _, hfound, hmap⟩ := hall ⟨0x1000⟩
  obtain ⟨l, rfl, hl, _⟩ := hmap
  exact ⟨t, m, n, l, hn, (EStateM.Result.ok.inj hfound).1, hl⟩

end Tree

end NestedPaging
