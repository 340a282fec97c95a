import NestedPaging.Proofs.Space.Runs

/-!
# Loads that are left out

A processor loads a regime value only if the record of its last load says otherwise, and the record
is right: in every run it is what the trace says (`Machine.Tracks`). So a load is left out exactly
when the same root under the same tag is loaded already (`Regime.compose_inj`), never just after the
record was reset (`Regime.compose_ne_zero`), and a flush always finds its own value loaded.
`elision_sound` has it all together.
-/

namespace NestedPaging

open PhysAddr (IsPage)

variable {σ : Type}

/-! ## values of different roots -/

namespace Regime
variable {k : Regime} {tag tag' : RegimeTag} {root root' : PhysAddr}

theorem compose_ne_zero (k : Regime) (tag : RegimeTag) (h : root.bits ≠ 0) :
    k.compose tag root ≠ 0 := by
  intro h0
  cases k with
  | eptp => exact h (UInt64.or_eq_zero_iff.mp h0).1
  | vttbr => exact h (UInt64.or_eq_zero_iff.mp h0).2
  | counting => exact h (UInt64.or_eq_zero_iff.mp h0).2

theorem toNat_compose_eptp (tag : RegimeTag) (h : IsPage root) :
    (eptp.compose tag root).toNat = root.bits.toNat + 30 := by
  obtain ⟨n, hn⟩ := (Addr.isPageAligned_iff root).mp h.aligned
  have hb : ((Format.extended.rootLevel.toUInt64 <<< 3) ||| 6).toNat = 30 := by decide
  show (root.bits ||| ((Format.extended.rootLevel.toUInt64 <<< 3) ||| 6)).toNat = _
  rw [UInt64.toNat_or, hb, hn, ← Nat.two_pow_add_eq_or_of_lt (by decide)]

theorem toNat_tagged (tag : RegimeTag) (h : IsPage root) :
    ((tag.bits.toUInt64 <<< 48) ||| root.bits).toNat
      = 2 ^ 48 * tag.bits.toNat + root.bits.toNat := by
  have ht : tag.bits.toNat < 2 ^ 16 := UInt16.toNat_lt tag.bits
  have h48 : (48 : UInt64).toNat % 64 = 48 := by decide
  rw [UInt64.toNat_or, UInt64.toNat_shiftLeft, h48, UInt16.toNat_toUInt64, Nat.shiftLeft_eq,
    Nat.mod_eq_of_lt (by omega), Nat.mul_comm, ← Nat.two_pow_add_eq_or_of_lt h.low]

theorem tagged_inj (h : IsPage root) (h' : IsPage root') :
    (tag.bits.toUInt64 <<< 48) ||| root.bits = (tag'.bits.toUInt64 <<< 48) ||| root'.bits ↔
      root = root' ∧ tag = tag' := by
  constructor
  · intro he
    have hn := congrArg UInt64.toNat he
    rw [toNat_tagged tag h, toNat_tagged tag' h'] at hn
    have hlow := h.low
    have hlow' := h'.low
    have htag : tag.bits.toNat = tag'.bits.toNat := by omega
    refine ⟨Addr.ext_toNat (by omega), ?_⟩
    obtain ⟨b⟩ := tag
    obtain ⟨b'⟩ := tag'
    rw [show b = b' from UInt16.toNat_inj.mp htag]
  · rintro ⟨rfl, rfl⟩
    rfl

/-- a value tells the root, and the tag where the value carries one -/
theorem compose_inj (h : IsPage root) (h' : IsPage root') :
    k.compose tag root = k.compose tag' root' ↔ root = root' ∧ (k = eptp ∨ tag = tag') := by
  cases k with
  | eptp =>
    constructor
    · intro he
      have hn := congrArg UInt64.toNat he
      rw [toNat_compose_eptp tag h, toNat_compose_eptp tag' h'] at hn
      exact ⟨Addr.ext_toNat (by omega), .inl rfl⟩
    · rintro ⟨rfl, _⟩
      rfl
  | vttbr => exact (tagged_inj h h').trans (by simp)
  | counting => exact (tagged_inj h h').trans (by simp)

end Regime

/-! ## the record of loads -/

namespace Machine
variable {m n : Machine σ} {es : List Event} {k : Regime} {c : CpuId} {v : Word}

/-- the record of loads is what the events say, and each flush found its value loaded -/
structure Tracks (m : Machine σ) : Prop where
  slot : ∀ k c, m.slot k c = lastLoad k c m.trace.toList
  flush : ∀ {i k c v}, m.trace[i]? = some (.flushed k c v) →
    lastLoad k c (m.trace.toList.take i) = v

theorem Tracks.step (h : m.Tracks) (hl : m.Logs es n)
    (hs : ∀ k c, n.slot k c = es.foldl (fun v e => e.loads k c v) (m.slot k c))
    (hf : ∀ {j k c v}, es[j]? = some (.flushed k c v) →
      (es.take j).foldl (fun v e => e.loads k c v) (m.slot k c) = v) : n.Tracks where
  slot k c := by
    rw [hl, lastLoad_append, ← h.slot, hs]
  flush {i k c v} he := by
    rw [hl]
    by_cases hi : i < m.trace.size
    · rw [hl.getElem?_old hi] at he
      rw [List.take_append_of_le_length (by rw [Array.length_toList]; omega)]
      exact h.flush he
    · obtain ⟨j, rfl⟩ := Nat.exists_eq_add_of_le (Nat.le_of_not_lt hi)
      rw [hl.getElem?_new] at he
      rw [← Array.length_toList, List.take_length_add_append, lastLoad_append, ← h.slot]
      exact hf he

theorem Tracks.idle (h : m.Tracks) (hi : m.Idle n) : n.Tracks := by
  obtain ⟨es, hl, hp⟩ := hi.logs
  refine h.step hl (fun k c => ?_) fun {j k c v} hj => ?_
  · rw [foldl_loads hp, hi.slot]
  · exact absurd trivial (hp _ (List.mem_of_getElem? hj))

theorem Tracks.mark (h : m.Tracks) (cell : Nat) : (m.note (.allDirty cell)).Tracks := by
  refine h.step (.note m _) (fun k c => rfl) fun {j k c v} hj => ?_
  exact absurd (List.mem_singleton.mp (List.mem_of_getElem? hj)) nofun

theorem Tracks.switch (h : m.Tracks) (k : Regime) (c : CpuId) (v : Word) :
    (m.switch k c v).Tracks := by
  refine h.step (m.logs_switch k c v) (fun l d => ?_) fun {j l d w} hj => ?_
  · rw [slot_switch]
    unfold loadOf
    by_cases hv : m.slot k c = v
    · rw [if_pos hv]
      show _ = m.slot l d
      split
      · rename_i e
        rw [← hv, e.1, e.2]
      · rfl
    · rw [if_neg hv]
      rfl
  · exact absurd (eq_of_mem_loadOf (List.mem_of_getElem? hj)) nofun

theorem Tracks.flushed (h : m.Tracks) (hv : m.slot k c = v) : (m.flush k c v).Tracks := by
  refine h.step (m.logs_flush k c v) (fun l d => rfl) fun {j l d w} hj => ?_
  have he := List.mem_singleton.mp (List.mem_of_getElem? hj)
  obtain ⟨rfl, rfl, rfl⟩ := Event.flushed.inj he
  obtain rfl : j = 0 := by
    have hlt := (List.getElem?_eq_some_iff.mp hj).1
    rw [List.length_singleton] at hlt
    omega
  exact hv

theorem Tracks.forget (h : m.Tracks) (k : Regime) (c : CpuId) : (m.forget k c).Tracks := by
  refine h.step (.push rfl) (fun l d => ?_) fun {j l d w} hj => ?_
  · rw [slot_forget]
    rfl
  · exact absurd (List.mem_singleton.mp (List.mem_of_getElem? hj)) nofun

theorem permits_tracks : Permits (fun _ _ => True) fun m n : Machine σ => m.Tracks → n.Tracks where
  trans h h' := h' ∘ h
  idle hi h := h.idle hi
  mark _ cell h := h.mark cell
  switch _ v _ h := h.switch _ _ v
  invalidate _ v _ h := (h.switch _ _ v).flushed (by rw [slot_switch, if_pos ⟨rfl, rfl⟩])
  forget _ _ h := h.forget _ _

theorem Tracks.meets {S : Repertoire σ} {m₀ : Machine σ} (h : m₀.Tracks) (hm : Meets S m₀ m) :
    m.Tracks := permits_tracks.meets hm h

theorem tracks_fresh (hl : m.loaded = default) (ht : m.trace = #[]) : m.Tracks where
  slot k c := by
    rw [ht]
    unfold slot
    rw [hl]
    show ((default : PerRegime LoadedRoots).get k).current c = 0
    cases k <;> exact Vector.getElem_replicate ..
  flush he := by
    rw [ht] at he
    cases he

/-! ## other processors -/

theorem permits_slot (k : Regime) (c : CpuId) :
    Permits (fun l d => ¬ (l = k ∧ d = c)) fun m n : Machine σ => n.slot k c = m.slot k c where
  trans h h' := h'.trans h
  idle hi := hi.slot k c
  mark _ _ := rfl
  switch _ _ hne := by rw [slot_switch, if_neg hne]
  invalidate _ _ hne := by rw [slot_flush, slot_switch, if_neg hne]
  forget _ hne := by rw [slot_forget, if_neg hne]

/-- what holds of the record of loads between the steps of a run -/
structure Elides (m : Machine σ) : Prop where
  /-- the record is the last load since it was last reset -/
  record : ∀ k c, m.slot k c = lastLoad k c m.trace.toList
  /-- a switch loads exactly if the record differs -/
  loads : ∀ (r : RegimeRoot) c tag (env : Env σ), ∃ n,
    (r.makeCurrent c tag : Act σ TableError Unit) env m = .ok () n ∧
      n.slot r.kind c = r.value tag ∧
      n.trace = if m.slot r.kind c = r.value tag then m.trace
        else m.trace.push (.loaded r.kind c (r.value tag))
  /-- after a switch to `r'`, only a switch to the same root and tag leaves the load out -/
  elided : ∀ (r r' : RegimeRoot) c tag tag', IsPage r.tree.root → IsPage r'.tree.root →
    r'.kind = r.kind → m.slot r.kind c = r'.value tag' →
    (m.slot r.kind c = r.value tag ↔
      r.tree.root = r'.tree.root ∧ (r.kind = .eptp ∨ tag = tag'))
  /-- a switch just after a reset loads -/
  reset : ∀ (r : RegimeRoot) c tag (env : Env σ), r.tree.root.bits ≠ 0 → ∃ k n,
    (Act.forgetLoaded r.kind c : Act σ TableError Unit) env m = .ok () k ∧
      (r.makeCurrent c tag : Act σ TableError Unit) env k = .ok () n ∧
      n.trace = k.trace.push (.loaded r.kind c (r.value tag))
  /-- each flush found its value loaded -/
  flushes : ∀ i k c v, m.trace[i]? = some (.flushed k c v) →
    lastLoad k c (m.trace.toList.take i) = v
  /-- a call for one processor leaves the records of the others, unless others at work change them -/
  others : ∀ (x : Call) (env : Env σ) k c, x.target? ≠ some (k, c) →
    (∀ j, (env.supply j).1.slot k c = j.slot k c) →
    (x.perform.after env m).slot k c = m.slot k c
  /-- so does a shootdown with the records of processors that are not online -/
  offline : ∀ (s : Space) (d : Shootdown σ) (env : Env σ) k c,
    ¬ (s.root.kind = k ∧ c.val < d.online) → (∀ j, (d.before j).slot k c = j.slot k c) →
    ((s.sync d).after env m).slot k c = m.slot k c ∧
      ((s.destroy d).after env m).slot k c = m.slot k c

theorem Tracks.elides (h : m.Tracks) : m.Elides where
  record := h.slot
  loads r c tag env := by
    refine ⟨_, r.makeCurrent_apply c tag env m, ?_, rfl⟩
    rw [slot_switch, if_pos ⟨rfl, rfl⟩]
  elided r r' c tag tag' hp hp' hk hs := by
    rw [hs, eq_comm]
    unfold RegimeRoot.value
    rw [hk]
    exact Regime.compose_inj hp hp'
  reset r c tag env h0 := by
    have hs : (m.forget r.kind c).slot r.kind c ≠ r.value tag := by
      rw [slot_forget, if_pos ⟨rfl, rfl⟩]
      exact (Regime.compose_ne_zero r.kind tag h0).symm
    exact ⟨_, _, Act.forgetLoaded_apply .., r.makeCurrent_apply c tag env _, if_neg hs⟩
  flushes i k c v he := h.flush he
  others x env k c hx hs := by
    refine (permits_slot k c).call x hs (fun l d hd => ?_) m
    rintro ⟨rfl, rfl⟩
    exact hx hd
  offline s d env k c hne hb := by
    have hc : ∀ c' : CpuId, c'.val < d.online → ¬ (s.root.kind = k ∧ c' = c) := by
      rintro c' hlt ⟨hk, rfl⟩
      exact hne ⟨hk, hlt⟩
    exact ⟨(permits_slot k c).sync hb hc env m, (permits_slot k c).destroy hb hc env m⟩

/-- in every run from a machine on which nothing was loaded, loads are left out only where they are
not needed -/
theorem elision_sound {S : Repertoire σ} {m₀ : Machine σ} (hl : m₀.loaded = default)
    (ht : m₀.trace = #[]) (hm : Meets S m₀ m) : m.Elides :=
  ((tracks_fresh hl ht).meets hm).elides

/-- of two switches to one root only the first loads -/
theorem elision_sound_twice : ∃ (r : RegimeRoot) (c : CpuId) (m n : Machine Unit),
    m.trace = #[.loaded r.kind c (r.value ⟨1⟩)] ∧
      (r.makeCurrent c ⟨1⟩ : Act Unit TableError Unit) (.offering []) m = .ok () n ∧
      n.trace = m.trace := by
  let r : RegimeRoot := ⟨.vttbr, 0, .stage2, .ofFrame 1, none⟩
  let c : CpuId := ⟨0, by decide⟩
  let m₀ : Machine Unit := { client := () }
  let S : Repertoire Unit := ⟨fun _ => True, fun _ => True, fun _ => True, fun _ => True⟩
  have hr : Run S m₀ (m₀.switch r.kind c (r.value ⟨1⟩)) := by
    rw [← Act.after_of_ok (r.makeCurrent_apply (ε := TableError) c ⟨1⟩ (.offering []) m₀)]
    exact .call (c := .makeCurrent r c ⟨1⟩) m₀ trivial trivial fun j => .refl j
  have h := elision_sound rfl rfl (Meets.run .start hr)
  have hs : (m₀.switch r.kind c (r.value ⟨1⟩)).slot r.kind c = r.value ⟨1⟩ := by
    rw [slot_switch, if_pos ⟨rfl, rfl⟩]
  obtain ⟨n, hn, _, ht⟩ := h.loads r c ⟨1⟩ (.offering [])
  rw [if_pos hs] at ht
  have h0 : m₀.slot r.kind c ≠ r.value ⟨1⟩ := by
    rw [(tracks_fresh rfl rfl).slot r.kind c]
    exact (Regime.compose_ne_zero .vttbr ⟨1⟩ (by decide)).symm
  exact ⟨r, c, _, n, if_neg h0, hn, ht⟩

end Machine

end NestedPaging
