import NestedPaging.Proofs.Objects.Creation
import NestedPaging.Proofs.Tree.Provision
import NestedPaging.Proofs.Objects.Units

/-!
# Objects do not get in each other's way

In a run from the time when there are no objects, every write of an operation on an object goes to a
page that this object holds at that moment, and the objects that are not acted on give the same answers
as before (`isolated`). Each operation leaves the objects in order (`Operation.Called.goes`), and by
induction so does each run (`Joint.goes`).
-/

namespace NestedPaging

variable {σ : Type} [Registry σ] {S : Terms} {c : Option (Turn σ)} {m₀ m n : Machine σ}

/-- every operation leaves the objects in order, however it ends -/
theorem Operation.Called.goes {op : Operation σ} {env : Env σ} (h : op.Called S env m) :
    Goes S (some (op.turn env)) m (op.after env m) := by
  cases op with
  | tree t op => exact goes_tree h
  | reclaim t => exact goes_reclaim h
  | space s op => exact goes_space h
  | sync s d => exact goes_sync h
  | destroy s d => exact goes_destroy h
  | attach t r a => exact goes_attach h
  | detach t r => exact goes_detach h
  | route t i r => exact goes_route h
  | entry t i => exact goes_entry h
  | start u root interrupts event => exact goes_unit rfl h (Serving.upholds.start root interrupts event m)
  | command u bit => exact goes_unit rfl h (Serving.upholds.command bit m)
  | invalidate u s domain => exact goes_unit rfl h (Serving.upholds.invalidate s domain m)
  | invalidateInterrupts u remapping =>
    exact goes_unit rfl h (Serving.upholds.invalidateInterrupts remapping m)
  | handleFaults u => exact goes_unit rfl h (Serving.upholds.handleFaults m)

/-- and so does every run -/
theorem Joint.goes (h : Joint S c m n) (hm : m.Orderly m.objects) : Goes S c m n := by
  induction h with
  | refl m => exact .refl hm
  | trans _ _ ih ih' =>
    have hk := ih hm
    exact hk.trans (ih' hk.order)
  | turn hj ih => exact (ih hm).turn hm hj
  | client m hc => exact .client hm hc
  | call op m ho ha hb hh _ ih => exact Operation.Called.goes ⟨hm, ho, ha, hb, hh, ih⟩
  | create c m hh _ hrun hw hc ih => exact goes_create hm hh ih (hrun ▸ c.outcome hh m) hw hc
  | fail c m hh _ hrun ih => exact goes_fail hm ih (hrun ▸ c.outcome hh m)
  | drop o env m ho ha hu hb hc => exact goes_drop hm env ho ha hu hb hc
  | within ha hu hb _ ih => exact (ih hm).mono ha hu hb

/-- In a joint run of any objects that share an allocator, a page has one holder at most at each moment,
each write of an operation goes to a page of its own object, and all other objects stay the same. -/
theorem isolated (h₀ : m₀.objects = ∅) (hV : ∀ i ∈ Registry.reserved σ, i ∈ m₀.live)
    (hr : Joint ⟨Set.univ, ∅, ∅⟩ none m₀ m) (h : Joint S c m n) :
    Story c m.held m n.held n ∧ m.SameOutside S.acts n := by
  have horder : m₀.Orderly m₀.objects := by
    rw [h₀]
    exact .empty hV
  have hm := (hr.goes horder).order
  have hn := h.goes hm
  exact ⟨hn.story, hn.same hm⟩

/-! ## two trees -/

/-- whoever runs the machine keeps the set of the objects -/
instance : Registry (Set Object) where
  objects := id
  reserved := ∅

/-- a tree is created on a page that is free -/
theorem Joint.exists_tree {m : Machine (Set Object)} {frames : List Nat} {i : Nat}
    (hlt : ∀ i ∈ frames, i < 2 ^ 36) (hi : i < 2 ^ 36)
    (hs : (Env.offering frames : Env (Set Object)).supply m = (m, some (.ofFrame i))) :
    ∃ (t : Tree) (n : Machine (Set Object)), Joint ⟨Set.univ, ∅, ∅⟩ none m n ∧ t.format = .stage2 ∧
      t.root.frame = i ∧ n.objects = insert (.tree t) m.objects ∧ ∀ j, j ∈ n.live ↔ j = i ∨ j ∈ m.live := by
  obtain ⟨t, k, hcr, hf, hroot, _⟩ := Tree.create_offered hs .stage2 none
  have hframe : t.root.frame = i := by rw [hroot, PhysAddr.frame_ofFrame hi]
  obtain ⟨j, hj, _, _, hk⟩ := Tree.create_eq hcr
  obtain ⟨rfl, _⟩ := Prod.mk.inj (hj.symm.trans hs)
  have hclient : k.client = j.client := (congrArg Machine.client hk).trans rfl
  have hobj : k.objects = j.objects := Machine.objects_eq hclient
  refine ⟨t, { k with client := insert (.tree t) k.objects }, .turn (.create (.tree .stage2 none) j
    (Env.honest_offering hlt) (fun j => .refl j) ?_ (Set.empty_subset _) rfl), hf, hframe, ?_, fun l => ?_⟩
  · unfold Creation.run Creation.made
    simp only [hcr]
  · rw [← hobj]
    rfl
  · show l ∈ k.live ↔ _
    rw [show k.live = _ from congrArg Machine.live hk, ← hframe]
    exact Machine.mem_live_take (w := 0)

/-- a page is mapped in one of two trees, and the other one stays the same -/
theorem isolated_mapping : ∃ (t t' : Tree) (m n : Machine (Set Object)) (w : Turn (Set Object)) (q : PhysAddr),
    Joint ⟨Set.univ, ∅, ∅⟩ none { client := ∅ } m ∧ m.objects = {.tree t', .tree t} ∧ t ≠ t' ∧
      w.object = .tree t' ∧ Joint ⟨{.tree t'}, ∅, ∅⟩ (some w) m n ∧ ⟨q, 0⟩ ∈ t'.path n.memory ⟨0⟩ ∧
      Story (some w) m.held m n.held n ∧ (Object.tree t).Same m n := by
  let page : Mapping := ⟨⟨0⟩, ⟨0x1000⟩, .ofPerms .readWrite⟩
  let env : Env (Set Object) := .offering [1, 2, 3, 4]
  have hlt : ∀ i ∈ [1, 2, 3, 4], i < 2 ^ 36 := by decide
  have hh : env.Honest := Env.honest_offering hlt
  have hnone : ∀ i, i ∉ ({ client := ∅ } : Machine (Set Object)).live := fun _ => Std.HashSet.not_mem_empty
  have hV : ∀ i ∈ Registry.reserved (Set Object), i ∈ ({ client := ∅ } : Machine (Set Object)).live :=
    fun i hi => absurd hi (Set.notMem_empty i)
  obtain ⟨t, m₁, hr₁, _, ht, ho₁, hl₁⟩ := Joint.exists_tree hlt (by decide) (Env.offering_free (hnone 1))
  have hs₂ : env.supply m₁ = (m₁, some (.ofFrame 2)) := by
    refine (Env.offering_used ((hl₁ 1).mpr (.inl rfl))).trans (Env.offering_free fun h => ?_)
    exact ((hl₁ 2).mp h).elim (by decide) (hnone 2)
  obtain ⟨t', m, hr₂, hf, ht', ho₂, hl₂⟩ := Joint.exists_tree hlt (by decide) hs₂
  have hr := hr₁.trans hr₂
  have hobj : m.objects = {.tree t', .tree t} := by
    rw [ho₂, ho₁]
    exact congrArg _ (insert_empty_eq _)
  have hne : t ≠ t' := by
    rintro rfl
    exact absurd (ht.symm.trans ht') (by decide)
  -- pages 3 and 4 are free, and become tables
  have hspare : m.Spare [1, 2, 3, 4] 2 := by
    refine ⟨[3, 4], by decide, Nat.le_refl _, fun i hi =>
      ⟨List.mem_cons_of_mem 1 (List.mem_cons_of_mem 2 hi), fun hin => ?_⟩⟩
    rcases (hl₂ i).mp hin with rfl | hin
    · exact absurd hi (by decide)
    · rcases (hl₁ i).mp hin with rfl | hin
      · exact absurd hi (by decide)
      · exact hnone i hin
  have hsound : (Object.tree t').Sound m := by
    have horder := (hr.goes (.empty hV)).order
    exact horder.sound _ (hobj ▸ .inl rfl)
  obtain ⟨others, own, howns⟩ := hsound.2 hsound.1
  have hlevel : page.leafLevel 0 t'.format.topLeafLevel = 0 := by
    rw [hf]
    decide
  obtain ⟨n, q, _, hn, hpath, _⟩ := Tree.update_spare hlt howns
    (show t'.format.refusal? page 0 = none by
      rw [hf]
      decide)
    rfl (by rw [hf]; exact hspare)
  rw [hlevel] at hpath
  have hcall : Joint ⟨{.tree t'}, ∅, ∅⟩ (some ((Operation.tree t' (.update page 0)).turn env)) m
      ((Operation.tree t' (.update page 0)).after env m) :=
    .call _ m (hobj ▸ .inl rfl) rfl nofun hh fun j => .refl j
  have hend : (Operation.tree t' (.update page 0)).after env m = n := by
    show (t'.perform (.update page 0)).after env m = n
    unfold Tree.perform
    rw [Act.after_map, Act.after_of_ok hn]
  rw [hend] at hcall
  obtain ⟨hstory, hsame⟩ := isolated rfl hV hr hcall
  exact ⟨t, t', m, n, _, q, hr, hobj, hne, rfl, hcall, hpath, hstory,
    (hsame (.tree t) (hobj ▸ .inr rfl) fun he => hne (Object.tree.inj he)).2⟩

end NestedPaging
