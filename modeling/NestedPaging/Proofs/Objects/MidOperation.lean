import NestedPaging.Proofs.Objects.JointRuns
import Mathlib.Order.CompletePartialOrder

/-!
# Operations under way

Between operations the objects are in order: each is sound, and no two hold the same page. In the
middle of an operation this holds of the others, while the object at work holds some pages apart from
theirs (`Machine.Amid`). Before it lets others run, it puts itself in order.

* `Machine.Orderly D m`    the objects in `D` are in order;
* `Goes S c m n`           a run from `m` to `n`: its story, its end, and what `S` promises to objects;
* `Underway S w m F n`     an operation from `m` on, at `n`, where its object holds `F`;
* `Underway.deed`          what the operation does keeps this;
* `Operation.Called.pause` so does what others do meanwhile.
-/

namespace NestedPaging

open Function (update)
open Machine (Deed Deeds)

variable {σ : Type} [Registry σ]

theorem Machine.objects_eq {m n : Machine σ} (h : n.client = m.client) : n.objects = m.objects :=
  congrArg Registry.objects h

/-- the objects in `D` are sound and live side by side -/
structure Machine.Orderly (D : Set Object) (m : Machine σ) : Prop where
  sound : ∀ b ∈ D, b.Sound m
  live : ∀ b ∈ D, ∀ i ∈ b.frames m, i ∈ m.live
  apart : D.PairwiseDisjoint fun b => b.frames m
  isIn : ∀ b ∈ D, ∀ c ∈ b.cells, c.IsIn m
  cells : D.PairwiseDisjoint Object.cells
  reserve : ∀ i ∈ Registry.reserved σ, i ∈ m.live ∧ ∀ b ∈ D, i ∉ b.frames m
  window : ∀ b ∈ D, b.window ⊆ Registry.reserved σ

namespace Machine.Orderly
variable {D E : Set Object} {m n : Machine σ}

theorem empty (hl : ∀ i ∈ Registry.reserved σ, i ∈ m.live) : m.Orderly ∅ :=
  ⟨nofun, nofun, Set.pairwiseDisjoint_empty, nofun, Set.pairwiseDisjoint_empty,
    fun i hi => ⟨hl i hi, nofun⟩, nofun⟩

theorem mono (h : m.Orderly D) (hE : E ⊆ D) : m.Orderly E :=
  ⟨fun b hb => h.sound b (hE hb), fun b hb => h.live b (hE hb), h.apart.subset hE,
    fun b hb => h.isIn b (hE hb), h.cells.subset hE,
    fun i hi => ⟨(h.reserve i hi).1, fun b hb => (h.reserve i hi).2 b (hE hb)⟩,
    fun b hb => h.window b (hE hb)⟩

/-- objects that are spared stay in order -/
theorem spared (h : m.Orderly D) (hs : ∀ b ∈ D, b.Spared m n) (ho : m.Onward n)
    (hl : ∀ i ∈ Registry.reserved σ, i ∈ n.live) : n.Orderly D := by
  have hf : ∀ b ∈ D, b.frames n = b.frames m := fun b hb => (hs b hb).frames (h.sound b hb)
  refine ⟨fun b hb => (hs b hb).sound (h.sound b hb), fun b hb i hi => ?_, fun b hb b' hb' hne => ?_,
    fun b hb c hc => ho.isIn c (h.isIn b hb c hc), h.cells, fun i hi => ⟨hl i hi, fun b hb hi' => ?_⟩,
    h.window⟩
  · rw [hf b hb] at hi
    exact (hs b hb).live i hi (h.live b hb i hi)
  · show Disjoint (b.frames n) (b'.frames n)
    rw [hf b hb, hf b' hb']
    exact h.apart hb hb' hne
  · rw [hf b hb] at hi'
    exact (h.reserve i hi).2 b hb hi'

theorem client (h : m.Orderly D) (client : σ) : Machine.Orderly D { m with client } :=
  h.spared (fun b _ => .client b m client) (.of_cells rfl rfl rfl rfl) fun i hi => (h.reserve i hi).1

end Machine.Orderly

/-- the object `o` is at work and holds the pages `F`; all others are in order -/
structure Machine.Amid (o : Object) (F : Set Nat) (m : Machine σ) : Prop where
  rest : m.Orderly (m.objects \ {o})
  live : ∀ i ∈ F, i ∈ m.live
  apart : ∀ b ∈ m.objects, b ≠ o → Disjoint F (b.frames m)
  cells : ∀ b ∈ m.objects, b ≠ o → Disjoint o.cells b.cells
  reserve : ∀ i ∈ Registry.reserved σ, i ∉ F
  window : o.window ⊆ Registry.reserved σ

namespace Machine.Amid
variable {o b : Object} {F F' : Set Nat} {m n : Machine σ}

theorem sound (h : m.Amid o F) (hb : b ∈ m.objects) (hne : b ≠ o) : b.Sound m := h.rest.sound b ⟨hb, hne⟩

/-- who holds what in the middle of an operation -/
theorem holdings (h : m.Amid o F) : Holdings.Apart (update m.held o F) m := by
  have hmem : ∀ {b i}, i ∈ update m.held o F b → b = o ∧ i ∈ F ∨ b ≠ o ∧ b ∈ m.objects ∧ i ∈ b.frames m := by
    intro b i hi
    by_cases he : b = o
    · rw [he, Function.update_self] at hi
      exact .inl ⟨he, hi⟩
    · rw [Function.update_of_ne he] at hi
      exact .inr ⟨he, hi⟩
  refine ⟨fun b i hi => ?_, fun b b' i hi hi' => ?_, fun b i hi hr => ?_⟩
  · rcases hmem hi with ⟨_, hi⟩ | ⟨hne, hb, hi⟩
    · exact h.live i hi
    · exact h.rest.live b ⟨hb, hne⟩ i hi
  · by_contra hbb
    rcases hmem hi with ⟨he, hiF⟩ | ⟨hne, hb, hib⟩
    · rcases hmem hi' with ⟨he', _⟩ | ⟨hne', hb', hib'⟩
      · exact hbb (he.trans he'.symm)
      · exact Set.disjoint_left.mp (h.apart b' hb' hne') hiF hib'
    · rcases hmem hi' with ⟨_, hiF⟩ | ⟨hne', hb', hib'⟩
      · exact Set.disjoint_left.mp (h.apart b hb hne) hiF hib
      · exact Set.disjoint_left.mp (h.rest.apart ⟨hb, hne⟩ ⟨hb', hne'⟩ hbb) hib hib'
  · rcases hmem hi with ⟨_, hi⟩ | ⟨hne, hb, hi⟩
    · exact h.reserve i hr hi
    · exact (h.rest.reserve i hr).2 b ⟨hb, hne⟩ hi

theorem of_orderly (h : m.Orderly m.objects) (ho : o ∈ m.objects) : m.Amid o (o.frames m) where
  rest := h.mono Set.sdiff_subset
  live := h.live o ho
  apart _ hb hne := h.apart ho hb (Ne.symm hne)
  cells _ hb hne := h.cells ho hb (Ne.symm hne)
  reserve i hi := (h.reserve i hi).2 o ho
  window := h.window o ho

/-- an object that is done is in order among the others -/
theorem orderly (h : m.Amid o F) (hs : o.Sound m) (hcells : ∀ c ∈ o.cells, c.IsIn m)
    (hF : o.frames m ⊆ F) : m.Orderly (insert o m.objects) := by
  have hcase : ∀ {b}, b ∈ insert o m.objects → b = o ∨ (b ∈ m.objects \ {o}) := by
    intro b hb
    by_cases he : b = o
    · exact .inl he
    · exact .inr ⟨hb.resolve_left he, he⟩
  refine ⟨fun b hb => ?_, fun b hb i hi => ?_, ?_, fun b hb c hc => ?_, ?_,
    fun i hi => ⟨(h.rest.reserve i hi).1, fun b hb hi' => ?_⟩, fun b hb => ?_⟩
  · rcases hcase hb with rfl | hb
    · exact hs
    · exact h.rest.sound b hb
  · rcases hcase hb with rfl | hb
    · exact h.live i (hF hi)
    · exact h.rest.live b hb i hi
  · intro b hb b' hb' hne
    rcases hcase hb with rfl | hb
    · rcases hcase hb' with rfl | hb'
      · exact absurd rfl hne
      · exact (h.apart b' hb'.1 hb'.2).mono_left hF
    · rcases hcase hb' with rfl | hb'
      · exact ((h.apart b hb.1 hb.2).mono_left hF).symm
      · exact h.rest.apart hb hb' hne
  · rcases hcase hb with rfl | hb
    · exact hcells c hc
    · exact h.rest.isIn b hb c hc
  · intro b hb b' hb' hne
    rcases hcase hb with rfl | hb
    · rcases hcase hb' with rfl | hb'
      · exact absurd rfl hne
      · exact h.cells b' hb'.1 hb'.2
    · rcases hcase hb' with rfl | hb'
      · exact (h.cells b hb.1 hb.2).symm
      · exact h.rest.cells hb hb' hne
  · rcases hcase hb with rfl | hb
    · exact h.reserve i hi (hF hi')
    · exact (h.rest.reserve i hi).2 b hb hi'
  · rcases hcase hb with rfl | hb
    · exact h.window
    · exact h.rest.window b hb

/-- what spares the others, while `o` at most gets pages that were free -/
theorem spared (h : m.Amid o F) (hc : n.client = m.client) (ho : m.Onward n)
    (hs : ∀ b ∈ m.objects, b ≠ o → b.Spared m n) (hl : ∀ i ∈ Registry.reserved σ, i ∈ n.live)
    (hF : ∀ i ∈ F', i ∈ n.live ∧ (i ∈ F ∨ i ∉ m.live)) : n.Amid o F' := by
  have hobj : n.objects = m.objects := Machine.objects_eq hc
  refine ⟨?_, fun i hi => (hF i hi).1, fun b hb hne => ?_, fun b hb => h.cells b (hobj ▸ hb),
    fun i hi hiF => ?_, h.window⟩
  · rw [hobj]
    exact h.rest.spared (fun b hb => hs b hb.1 hb.2) ho hl
  · rw [hobj] at hb
    rw [(hs b hb hne).frames (h.sound hb hne), Set.disjoint_left]
    intro i hi hib
    rcases (hF i hi).2 with hin | hout
    · exact Set.disjoint_left.mp (h.apart b hb hne) hin hib
    · exact hout (h.rest.live b ⟨hb, hne⟩ i hib)
  · rcases (hF i hiF).2 with hin | hout
    · exact h.reserve i hi hin
    · exact hout (h.rest.reserve i hi).1

/-- an access of `o` to what it holds spares the others -/
theorem deed (h : m.Amid o F) (hd : Deed (Machine.Beside o.cells) F m F' n) :
    n.Amid o F' ∧ ∀ b ∈ m.objects, b ≠ o → b.Spared m n := by
  have hbeside := Machine.Beside.of_deed hd
  have hspared : ∀ b ∈ m.objects, b ≠ o → b.Spared m n := by
    intro b hb hne
    have helse : ∀ i ∈ b.frames m, Machine.Elsewhere F m i := fun i hi =>
      ⟨h.rest.live b ⟨hb, hne⟩ i hi, fun hF => Set.disjoint_left.mp (h.apart b hb hne) hF hi⟩
    refine ⟨fun a ha => (hd.elsewhere (helse _ ha)).2 a rfl, fun i hi _ => (hd.elsewhere (helse i hi)).1.1,
      fun c hc => hbeside.kept c fun hco => ?_, hbeside.onward.split⟩
    exact Set.disjoint_left.mp (h.cells b hb hne) hco hc
  refine ⟨h.spared hbeside.client hbeside.onward hspared (fun i hi => ?_) fun i hi => ?_, hspared⟩
  · exact (hd.elsewhere ⟨(h.rest.reserve i hi).1, h.reserve i hi⟩).1.1
  · exact ⟨hd.live h.live i hi, hd.held hi⟩

/-- so does a store to a register of `o` -/
theorem register (h : m.Amid o F) {a : PhysAddr} {v : Word} (ha : a.frame ∈ o.window) :
    (m.store a v).Amid o F ∧ ∀ b ∈ m.objects, b ≠ o → b.Spared m (m.store a v) := by
  have hspared : ∀ b ∈ m.objects, b ≠ o → b.Spared m (m.store a v) := by
    intro b hb hne
    refine ⟨fun c hc => Memory.read_write_other (fun hs => ?_) m.memory v, fun i _ hi => hi,
      fun c _ => by cases c <;> rfl, rfl⟩
    refine (h.rest.reserve a.frame (h.window ha)).2 b ⟨hb, hne⟩ ?_
    rw [hs.1]
    exact hc
  exact ⟨h.spared rfl (.of_cells rfl rfl rfl rfl) hspared (fun i hi => (h.rest.reserve i hi).1)
    fun i hi => ⟨h.live i hi, .inl hi⟩, hspared⟩

/-- `o` may leave pages alone -/
theorem leave (h : m.Amid o F) (hF : F' ⊆ F) : m.Amid o F' :=
  h.spared rfl (.of_cells rfl rfl rfl rfl) (fun b _ _ => .refl b m)
    (fun i hi => (h.rest.reserve i hi).1) fun i hi => ⟨h.live i (hF hi), .inl (hF hi)⟩

end Machine.Amid

/-! ## what a run promises to objects -/

/-- what a run under the terms `S` promises to the object `b` -/
structure Terms.Guards (S : Terms) (b : Object) (m n : Machine σ) : Prop where
  stays : b ∉ S.acts ∨ b ∈ S.used ∨ b ∈ S.busy → b ∈ n.objects
  grows : b ∈ S.busy → b.Grows m n
  spared : b ∉ S.acts → b.Sound m → b.Spared m n

namespace Terms.Guards
variable {S : Terms} {b : Object} {m k n : Machine σ}

theorem of_spared (hb : b ∈ n.objects) (h : b.Spared m n) : S.Guards b m n :=
  ⟨fun _ => hb, fun _ => h.grows, fun _ _ => h⟩

theorem trans (h : S.Guards b m k) (h' : b ∈ k.objects → S.Guards b k n) : S.Guards b m n where
  stays hb := (h' (h.stays hb)).stays hb
  grows hb := (h.grows hb).trans ((h' (h.stays (.inr (.inr hb)))).grows hb)
  spared hb hs := (h.spared hb hs).trans hs
    ((h' (h.stays (.inl hb))).spared hb ((h.spared hb hs).sound hs))

theorem mono {S' : Terms} (h : S'.Guards b m n) (ha : S'.acts ⊆ S.acts) (hu : S.used ⊆ S'.used)
    (hb : S.busy ⊆ S'.busy) : S.Guards b m n where
  stays hs := h.stays (hs.imp (fun hs hs' => hs (ha hs')) (Or.imp (@hu b) (@hb b)))
  grows hs := h.grows (hb hs)
  spared hs := h.spared fun hs' => hs (ha hs')

/-- others promise what the operation does -/
theorem of_during {op : Operation σ} (h : (S.during op).Guards b m n) : S.Guards b m n :=
  h.mono (.refl _) (fun _ => .inr) fun _ => .inl

end Terms.Guards

/-- a run from `m` to `n`, and how it leaves the objects -/
structure Goes (S : Terms) (c : Option (Turn σ)) (m n : Machine σ) : Prop where
  order : n.Orderly n.objects
  story : Story c m.held m n.held n
  guards : ∀ b ∈ m.objects, S.Guards b m n

theorem Machine.held_of_mem {o : Object} {m : Machine σ} (ho : o ∈ m.objects) : m.held o = o.frames m := by
  ext i
  exact ⟨fun hi => hi.2, fun hi => ⟨ho, hi⟩⟩

namespace Goes
variable {S : Terms} {c : Option (Turn σ)} {w : Turn σ} {m k n : Machine σ}

theorem refl (h : m.Orderly m.objects) : Goes S c m m :=
  ⟨h, .refl, fun b hb => .of_spared hb (.refl b m)⟩

theorem trans (h : Goes S c m k) (h' : Goes S c k n) : Goes S c m n :=
  ⟨h'.order, h.story.trans h'.story, fun b hb => (h.guards b hb).trans fun hk => h'.guards b hk⟩

theorem mono {S' : Terms} (h : Goes S' c m n) (ha : S'.acts ⊆ S.acts) (hu : S.used ⊆ S'.used)
    (hb : S.busy ⊆ S'.busy) : Goes S c m n :=
  ⟨h.order, h.story, fun b hm => (h.guards b hm).mono ha hu hb⟩

/-- objects that the run may not act on stay the same -/
theorem same (h : Goes S c m n) (hm : m.Orderly m.objects) : m.SameOutside S.acts n := fun b hb hout =>
  ⟨(h.guards b hb).stays (.inl hout), ((h.guards b hb).spared hout (hm.sound b hb)).same (hm.sound b hb)⟩

theorem turn (h : Goes S (some w) m n) (hm : m.Orderly m.objects) (hj : Joint S (some w) m n) :
    Goes S none m n :=
  ⟨h.order, .turn hj (h.same hm) h.story, h.guards⟩

/-- an operation lets others run -/
theorem others (h : Goes S none m (w.others m)) : Goes S (some w) m (w.others m) :=
  ⟨h.order, .others h.story, h.guards⟩

/-- whoever runs the machine takes a note -/
theorem client (h : m.Orderly m.objects) {client : σ} (hc : Registry.objects client = m.objects) :
    Goes S c m { m with client } := by
  have hobj : Machine.objects { m with client } = m.objects := hc
  have hheld : Machine.held { m with client } = m.held := by
    funext o
    unfold Machine.held
    rw [hobj, o.frames_client]
  refine ⟨?_, ?_, fun b hb => .of_spared (hobj ▸ hb) (.client b m client)⟩
  · rw [hobj]
    exact h.client client
  · rw [hheld]
    exact .client client

/-- nothing of any object is accessed -/
theorem idle (h : m.Orderly m.objects) (hd : Deed (Machine.Beside ∅) ∅ m ∅ n) : Goes S c m n := by
  have hbeside := Machine.Beside.of_deed hd
  have hobj : n.objects = m.objects := Machine.objects_eq hbeside.client
  have hspared : ∀ b ∈ m.objects, b.Spared m n := fun b hb =>
    ⟨fun a ha => (hd.elsewhere ⟨h.live b hb _ ha, nofun⟩).2 a rfl,
      fun i hi hl => (hd.elsewhere ⟨hl, nofun⟩).1.1, fun c _ => hbeside.kept c nofun, hbeside.onward.split⟩
  have hheld : n.held = m.held := by
    funext o
    ext i
    unfold Machine.held
    rw [hobj]
    refine and_congr_right fun ho => ?_
    rw [(hspared o ho).frames (h.sound o ho)]
  refine ⟨?_, ?_, fun b hb => .of_spared (hobj ▸ hb) (hspared b hb)⟩
  · rw [hobj]
    exact h.spared hspared hbeside.onward fun i hi => (hd.elsewhere ⟨(h.reserve i hi).1, nofun⟩).1.1
  · rw [hheld]
    exact .idle hd

end Goes

/-! ## an operation under way -/

/-- an operation under way since `m`: its object holds `F` -/
structure Underway (S : Terms) (w : Turn σ) (m : Machine σ) (F : Set Nat) (n : Machine σ) : Prop where
  amid : n.Amid w.object F
  story : Story (some w) m.held m (update n.held w.object F) n
  stays : w.object ∈ m.objects → w.object ∈ n.objects
  guards : ∀ b ∈ m.objects, b ≠ w.object → S.Guards b m n

namespace Underway
variable {S : Terms} {w : Turn σ} {m k n : Machine σ} {F F' K : Set Nat}

theorem start (h : m.Orderly m.objects) (ho : w.object ∈ m.objects) :
    Underway S w m (w.object.frames m) m := by
  refine ⟨.of_orderly h ho, ?_, id, fun b hb _ => .of_spared hb (.refl b m)⟩
  rw [← Machine.held_of_mem ho, Function.update_eq_self]
  exact .refl

/-- what the operation does spares the others -/
theorem step (h : Underway S w m F k) (ha : n.Amid w.object F')
    (hs : ∀ b ∈ k.objects, b ≠ w.object → b.Spared k n) (hc : n.client = k.client)
    (hstory : ∀ H : Holdings, H.Apart k → H w.object = F → k.SameOutside {w.object} n →
      Story (some w) H k (update H w.object F') n) :
    Underway S w m F' n := by
  have hobj : n.objects = k.objects := Machine.objects_eq hc
  have hheld : ∀ b, b ≠ w.object → n.held b = k.held b := by
    intro b hne
    ext i
    unfold Machine.held
    rw [hobj]
    refine and_congr_right fun hb => ?_
    rw [(hs b hb hne).frames (h.amid.sound hb hne)]
  refine ⟨ha, h.story.trans ?_, fun ho => hobj ▸ h.stays ho, fun b hb hne =>
    (h.guards b hb hne).trans fun hk => .of_spared (hobj ▸ hk) (hs b hk hne)⟩
  have hlast := hstory (update k.held w.object F) h.amid.holdings (Function.update_self ..) fun b hb hne =>
    ⟨hobj ▸ hb, (hs b hb hne).same (h.amid.sound hb hne)⟩
  rw [Function.update_idem] at hlast
  have he : update n.held w.object F' = update k.held w.object F' := by
    funext b
    by_cases hb : b = w.object
    · rw [hb, Function.update_self, Function.update_self]
    · rw [Function.update_of_ne hb, Function.update_of_ne hb]
      exact hheld b hb
  rw [he]
  exact hlast

theorem deed (h : Underway S w m F k) (hd : Deed (Machine.Beside w.object.cells) F k F' n) :
    Underway S w m F' n := by
  obtain ⟨ha, hs⟩ := h.amid.deed hd
  refine h.step ha hs (Machine.Beside.of_deed hd).client fun H hA hH hsame => .deed hA ?_ hsame
  rw [hH]
  exact hd

theorem deeds (h : Underway S w m F k) (hd : Deeds (Machine.Beside w.object.cells) F k F' n) :
    Underway S w m F' n := by
  induction hd with
  | refl => exact h
  | tail _ hd ih => exact ih.deed hd

theorem register (h : Underway S w m F n) {a : PhysAddr} {v : Word} (ha : a.frame ∈ w.object.window) :
    Underway S w m F (n.store a v) := by
  obtain ⟨hamid, hs⟩ := h.amid.register (v := v) ha
  refine h.step hamid hs rfl fun H hA hH hsame => ?_
  rw [← hH, Function.update_eq_self]
  exact .register hA ha h.amid.window hsame

theorem leave (h : Underway S w m F n) (hF : F' ⊆ F) : Underway S w m F' n :=
  h.step (h.amid.leave hF) (fun b _ _ => .refl b n) rfl fun _ _ hH _ => .leave (hH ▸ hF)

/-- the operation is over, and whoever runs the machine notes which objects there are now -/
theorem close (h : Underway S w m F n) {client : σ} (horder : n.Orderly (Registry.objects client))
    (hothers : ∀ b, b ≠ w.object → (b ∈ Registry.objects client ↔ b ∈ n.objects))
    (hheld : F = {i | w.object ∈ Registry.objects client ∧ i ∈ w.object.frames n})
    (hg : w.object ∈ m.objects → S.Guards w.object m { n with client }) :
    Goes S (some w) m { n with client } := by
  refine ⟨horder.client client, ?_, fun b hb => ?_⟩
  · have he : Machine.held { n with client } = update n.held w.object F := by
      funext b
      unfold Machine.held
      rw [b.frames_client]
      by_cases hb : b = w.object
      · rw [hb, Function.update_self, hheld]
        rfl
      · rw [Function.update_of_ne hb]
        ext i
        exact and_congr_left fun _ => hothers b hb
    rw [he]
    exact h.story.trans (.client client)
  · by_cases hne : b = w.object
    · rw [hne] at hb ⊢
      exact hg hb
    · exact (h.guards b hb hne).trans fun hn => .of_spared ((hothers b hne).mpr hn) (.client b n client)

/-- the object is there from now on -/
theorem arrive (h : Underway S w m (w.object.frames n) n) (hs : w.object.Sound n)
    (hi : ∀ c ∈ w.object.cells, c.IsIn n) {client : σ}
    (hc : Registry.objects client = insert w.object n.objects)
    (hg : w.object ∈ m.objects → S.Guards w.object m { n with client }) :
    Goes S (some w) m { n with client } := by
  refine h.close (hc ▸ h.amid.orderly hs hi (.refl _)) (fun b hb => ?_) ?_ hg
  · rw [hc, Set.mem_insert_iff, or_iff_right hb]
  · rw [hc]
    ext i
    exact ⟨fun hi => ⟨.inl rfl, hi⟩, fun hi => hi.2⟩

end Underway

/-- an operation as a run may make it, where others leave the objects in order -/
structure Operation.Called (S : Terms) (op : Operation σ) (env : Env σ) (m : Machine σ) : Prop where
  order : m.Orderly m.objects
  mem : op.object ∈ m.objects
  acts : op.object ∈ S.acts
  busy : op.Frees m → op.object ∉ S.busy
  honest : env.Honest
  others : ∀ j : Machine σ, j.Orderly j.objects → Goes (S.during op) none j (op.others env j)

/-- the operation goes on after it let others run -/
structure Resumed (S : Terms) (w : Turn σ) (m : Machine σ) (K : Set Nat) (k n : Machine σ) : Prop where
  underway : Underway S w m (w.object.frames n ∪ K) n
  sound : w.object.Sound n
  onward : k.Onward n
  /-- what it had set aside is as it was -/
  aside : ∀ i ∈ K, i ∉ w.object.frames n
  memory : ∀ a : PhysAddr, a.frame ∈ K → n.memory.read a = k.memory.read a

namespace Operation.Called
variable {S : Terms} {op : Operation σ} {env : Env σ} {m k n : Machine σ} {K : Set Nat}

theorem start (h : op.Called S env m) : Underway S (op.turn env) m (op.object.frames m) m :=
  Underway.start h.order h.mem

theorem isIn (h : op.Called S env m) (ho : m.Onward n) : ∀ c ∈ op.object.cells, c.IsIn n :=
  fun c hc => ho.isIn c (h.order.isIn _ h.mem c hc)

/-- before it lets others run, the object puts itself in order, and sets the pages `K` aside -/
theorem pause (h : op.Called S env m) (hu : Underway S (op.turn env) m (op.object.frames k ∪ K) k)
    (hs : op.object.Sound k) (hK : ∀ i ∈ K, i ∉ op.object.frames k) :
    Resumed S (op.turn env) m K k (op.others env k) ∧
      (¬ op.Reclaims → op.object.Grows k (op.others env k)) := by
  obtain ⟨n, hn⟩ : ∃ n, op.others env k = n := ⟨_, rfl⟩
  have ho : op.object ∈ k.objects := hu.stays h.mem
  have horder : k.Orderly (insert op.object k.objects) :=
    hu.amid.orderly hs (h.isIn hu.story.onward) Set.subset_union_left
  rw [Set.insert_eq_of_mem ho] at horder
  have hg := h.others k horder
  rw [hn] at hg ⊢
  have hguards := hg.guards op.object ho
  have hmem : op.object ∈ n.objects := hguards.stays (.inr (.inl (.inl rfl)))
  -- nobody holds what is set aside
  have hidle : ∀ i ∈ K, Story.Idle k.held k i := by
    refine fun i hi => ⟨hu.amid.live i (.inr hi), fun hr => hu.amid.reserve i hr (.inr hi), fun b hb => ?_⟩
    by_cases he : b = op.object
    · exact hK i hi (he ▸ hb.2)
    · exact Set.disjoint_left.mp (hu.amid.apart b hb.1 he) (.inr hi) hb.2
  have hlater : ∀ i ∈ K, Story.Idle n.held n i := fun i hi => (hg.story.elsewhere (hidle i hi)).1
  have haside : ∀ i ∈ K, i ∉ op.object.frames n := fun i hi hin => (hlater i hi).2.2 op.object ⟨hmem, hin⟩
  have hstory : Story (some (op.turn env)) (update k.held op.object (op.object.frames k ∪ K)) k
      (update n.held op.object (op.object.frames n ∪ K)) n := by
    have hframe := hg.story.frame (o := op.object) hidle
    unfold Holdings.with at hframe
    rw [Machine.held_of_mem ho, Machine.held_of_mem hmem] at hframe
    rw [← hn] at hframe ⊢
    exact .others (w := op.turn env) hframe
  refine ⟨⟨⟨?_, hu.story.trans hstory, fun _ => hmem, fun b hb hne => ?_⟩, hg.order.sound _ hmem,
    hg.story.onward, haside, fun a ha => (hg.story.elsewhere (hidle _ ha)).2 a rfl⟩, fun hr =>
    hguards.grows (.inr ⟨rfl, hr⟩)⟩
  · refine ⟨hg.order.mono Set.sdiff_subset, ?_, fun b hb hne => ?_,
      fun b hb hne => hg.order.cells hmem hb (Ne.symm hne), ?_, hg.order.window _ hmem⟩
    · rintro i (hi | hi)
      · exact hg.order.live _ hmem i hi
      · exact (hlater i hi).1
    · rw [Set.disjoint_left]
      rintro i (hi | hi) hib
      · exact Set.disjoint_left.mp (hg.order.apart hmem hb (Ne.symm hne)) hi hib
      · exact (hlater i hi).2.2 b ⟨hb, hib⟩
    · rintro i hr (hi | hi)
      · exact (hg.order.reserve i hr).2 _ hmem hi
      · exact (hlater i hi).2.1 hr
  · exact (hu.guards b hb hne).trans fun hk => (hg.guards b hk).of_during

/-- an object that sets nothing aside -/
theorem yield (h : op.Called S env m) (hu : Underway S (op.turn env) m (op.object.frames k) k)
    (hs : op.object.Sound k) :
    Underway S (op.turn env) m (op.object.frames (op.others env k)) (op.others env k) ∧
      Resumed S (op.turn env) m ∅ k (op.others env k) ∧
      (¬ op.Reclaims → op.object.Grows k (op.others env k)) := by
  rw [← Set.union_empty (op.object.frames k)] at hu
  obtain ⟨hres, hgrows⟩ := h.pause hu hs nofun
  have hu' := hres.underway
  rw [Set.union_empty] at hu'
  exact ⟨hu', hres, hgrows⟩

/-- the end of an operation whose object holds its own pages only -/
theorem finish (h : op.Called S env m) (hu : Underway S (op.turn env) m (op.object.frames n) n)
    (hs : op.object.Sound n) (hg : op.object ∈ S.busy → op.object.Grows m n) :
    Goes S (some (op.turn env)) m n := by
  have hmem : op.object ∈ n.objects := hu.stays h.mem
  exact Underway.arrive hu hs (h.isIn hu.story.onward) (Set.insert_eq_of_mem hmem).symm fun _ =>
    ⟨fun _ => hmem, hg, fun hout => absurd h.acts hout⟩

end Operation.Called

end NestedPaging
