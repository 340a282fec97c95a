import NestedPaging.Proofs.Tree.Growing

/-!
# What an update needs to end well

* `Spare.room`       an allocator has room for as many pages as are free;
* `update_leaves_spare`, `update_spare`   a mapping ends well if enough are, and its table is on the path
                     of the address;
* `Calm.update_detaches`   an update right above a table in place needs no page and detaches it.
-/

namespace NestedPaging

variable {σ : Type} {frames : List Nat} {d : Nat} {m n : Machine σ}

/-- at least `d` of the pages `frames` are free -/
def Machine.Spare (frames : List Nat) (d : Nat) (m : Machine σ) : Prop :=
  ∃ free : List Nat, free.Nodup ∧ d ≤ free.length ∧ ∀ i ∈ free, i ∈ frames ∧ i ∉ m.live

theorem Env.offering_room {i : Nat} (hi : i ∈ frames) (hm : i ∉ m.live) :
    ∃ q, (Env.offering frames : Env σ).supply m = (m, some (.ofFrame q)) := by
  have hsome : (frames.find? fun n => !m.live.contains n).isSome := by
    rw [List.find?_isSome]
    refine ⟨i, hi, ?_⟩
    rw [Bool.not_eq_true']
    exact Bool.eq_false_iff.mpr hm
  obtain ⟨q, hq⟩ := Option.isSome_iff_exists.mp hsome
  refine ⟨q, ?_⟩
  show (m, (frames.find? fun n => !m.live.contains n).map PhysAddr.ofFrame) = _
  rw [hq, Option.map_some]

/-- a free page is offered -/
theorem Machine.Spare.next (h : m.Spare frames (d + 1)) :
    ∃ q, (Env.offering frames : Env σ).supply m = (m, some (.ofFrame q)) := by
  obtain ⟨free, _, hd, hf⟩ := h
  obtain ⟨i, hi⟩ := List.exists_mem_of_length_pos (Nat.lt_of_lt_of_le (Nat.succ_pos d) hd)
  exact Env.offering_room (hf i hi).1 (hf i hi).2

/-- as long as fewer pages are added than are free, one of these is left -/
theorem Machine.Spare.room (h : m.Spare frames d) : (Env.offering frames).Room d m := by
  obtain ⟨free, hn, hd, hf⟩ := h
  intro e n he hadds
  obtain ⟨taken, hlen, hin⟩ := hadds
  obtain ⟨i, hi, htaken⟩ : ∃ i ∈ free, i ∉ taken := by
    by_contra hall
    have hsub : free ⊆ taken := fun i hi => by_contra fun ht => hall ⟨i, hi, ht⟩
    have hle := (List.subperm_of_subset hn hsub).length_le
    omega
  obtain ⟨q, hq⟩ := Env.offering_room (hf i hi).1 fun hlive => (hin i hlive).elim (hf i hi).2 htaken
  rw [hq]
  exact Option.some_ne_none _

/-- pages behind the only one in use -/
theorem Machine.Spare.behind (h : ∀ i ∈ m.live, i = 1) (d : Nat) : m.Spare (List.range' 2 d) d := by
  refine ⟨List.range' 2 d, List.nodup_range', by rw [List.length_range'], fun i hi => ⟨hi, fun hin => ?_⟩⟩
  have hfirst := (List.mem_range'_1.mp hi).1
  rw [h i hin] at hfirst
  exact absurd hfirst (by decide)

theorem Env.honest_behind (hd : d ≤ 2 ^ 35) : (Env.offering (List.range' 2 d) : Env σ).Honest := by
  refine Env.honest_offering fun i hi => ?_
  have hlast := (List.mem_range'_1.mp hi).2
  omega

namespace Tree
variable {t : Tree} {others : Nat → Prop} {own : Layout} {a : GuestAddr} {p : PhysAddr} {l x : Nat}

/-- a mapping ends well if a page is free for each level between the root and its entries, and leaves
those that are free besides -/
theorem update_leaves_spare (hlt : ∀ i ∈ frames, i < 2 ^ 36) {p : Mapping} {order : Nat}
    (h : t.Owns others own (t.tables m))
    (hr : t.format.refusal? p order = none) (hmap : p.maps = true)
    (hm : m.Spare frames (t.format.rootLevel - p.leafLevel order t.format.topLeafLevel + d)) :
    ∃ n c own', t.update p order (.offering frames) m = .ok (p.coveredOrder t.format order) n ∧
      ⟨c, p.leafLevel order t.format.topLeafLevel⟩ ∈ t.path n.memory p.gpa ∧
      t.Owns others own' (t.tables n) ∧ n.splitExecute = m.splitExecute ∧ (Env.offering frames).Room d n := by
  have hacc := Format.accepts_of_refusal? hr
  have hroom := hm.room
  obtain ⟨n, own', k, hn, hquiet, hl, hadds⟩ :=
    Calm.update_room (Env.honest_offering hlt) (.offering t frames) h hr (hroom.le (Nat.le_add_right ..))
  obtain ⟨c, hc⟩ := hl.reaches hquiet.owns hacc hmap
  exact ⟨n, c, own', hn, hc, hl.owns hquiet.owns hacc, hl.split.trans hquiet.split, hroom.after hadds⟩

theorem update_spare (hlt : ∀ i ∈ frames, i < 2 ^ 36) {p : Mapping} {order : Nat}
    (h : t.Owns others own (t.tables m))
    (hr : t.format.refusal? p order = none) (hmap : p.maps = true)
    (hm : m.Spare frames (t.format.rootLevel - p.leafLevel order t.format.topLeafLevel)) :
    ∃ n c own', t.update p order (.offering frames) m = .ok (p.coveredOrder t.format order) n ∧
      ⟨c, p.leafLevel order t.format.topLeafLevel⟩ ∈ t.path n.memory p.gpa ∧
      t.Owns others own' (t.tables n) := by
  obtain ⟨n, c, own', hn, hc, ho, -, -⟩ := update_leaves_spare (d := 0) hlt h hr hmap hm
  exact ⟨n, c, own', hn, hc, ho⟩

/-- an update right above a table in place ends well and detaches it -/
theorem Calm.update_detaches {env : Env σ} (hh : env.Honest) (hc : t.Calm env) {q : Mapping}
    {order : Nat} (h : t.Owns others own (t.tables m)) (hr : t.format.refusal? q order = none)
    (hp : ⟨p, l⟩ ∈ t.path m.memory q.gpa)
    (hl : q.leafLevel order t.format.topLeafLevel = l + 1) :
    ∃ n, t.update q order env m = .ok (q.coveredOrder t.format order) n ∧
      ⟨p, l⟩ ∈ (t.tables n).retired := by
  have hroot : l < t.format.rootLevel := by
    have hle := t.leafLevel_le_root q order
    omega
  obtain ⟨above, habove⟩ := t.format.exists_mem_path_above hp hroot
  rw [← hl] at habove
  obtain ⟨n, hn⟩ := update_of_reach q order hr
    (Rely.reach_of_mem_path (m := t.enterWalk m) t env _ habove)
  have hup := hc.update hh h hr
  rw [hn] at hup
  obtain ⟨own', _, _, k, hquiet, _, hlands⟩ := hup
  exact ⟨n, hn, hlands.detaches (hquiet.path (Format.accepts_of_refusal? hr).inRange hp) hl⟩

/-! ## a page and the block around it -/

/-- a page -/
def samplePage : Mapping := ⟨⟨0⟩, ⟨0x1000⟩, .ofPerms .readWrite⟩

/-- a block over the page -/
def sampleBlock : Mapping := ⟨⟨0⟩, ⟨0x200000⟩, .ofPerms .readWrite⟩

theorem refusal?_samplePage (f : Format) : f.refusal? samplePage 0 = none := by cases f <;> decide

theorem leafLevel_samplePage (f : Format) : samplePage.leafLevel 0 f.topLeafLevel = 0 := by
  cases f <;> decide

theorem refusal?_sampleBlock (f : Format) : f.refusal? sampleBlock 9 = none := by cases f <;> decide

theorem leafLevel_sampleBlock (f : Format) : sampleBlock.leafLevel 9 f.topLeafLevel = 1 := by
  cases f <;> decide

end Tree

end NestedPaging
