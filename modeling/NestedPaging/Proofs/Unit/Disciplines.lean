import NestedPaging.Proofs.Unit.Addition

/-!
# The two disciplines agree

One unit takes its invalidations from a queue and may be stalled meanwhile, another one takes them through
its command registers. If they can do the same, both end up having acted on the same list.

* `Flush.issue`              the calls that ask a unit to drop what it cached;
* `PairStep`                 a call on either unit, or the one with the queue is stalled;
* `run_heard`                what two units hear of any sequence of steps;
* `disciplines_agree`        that is all of it, if no register overlaps another.

A context command register that a fault record covers is deaf, though it looks as if its commands were
done (`covered_disagrees`).
-/

namespace NestedPaging

variable {σ : Type}

/-- a call that drops what a unit cached, all of it or what it knows about a domain -/
inductive Flush where
  | contexts
  | domain (d : UInt16)
  deriving DecidableEq

namespace Flush

def scope : Flush → Scope
  | contexts => .global
  | domain _ => .domain

def tag : Flush → UInt16
  | contexts => 0
  | domain d => d

def issue (u : Remapper) : Flush → Act σ RemapError Unit
  | contexts => u.invalidateContexts
  | domain d => u.invalidateDomain d

/-- cached context entries first, then mappings -/
def invalidations (f : Flush) : List Invalidation :=
  [⟨Descriptor.contextKind, f.scope.code, f.tag⟩, ⟨Descriptor.iotlbKind, f.scope.code, f.tag⟩]

theorem issue_eq (u : Remapper) (f : Flush) : (f.issue u : Act σ RemapError Unit) = u.invalidate f.scope f.tag := by
  cases f <;> rfl

end Flush

/-- what happens to two units -/
inductive PairStep where
  | first (f : Flush)
  | second (f : Flush)
  /-- the first unit is stalled until a number of reads of its queue head -/
  | stall (reads : Nat)

namespace PairStep

/-- run a step; the first unit is behind the device `cell` -/
def run (u v : Remapper) (cell : Nat) : PairStep → Act σ RemapError Unit
  | first f => f.issue u
  | second f => f.issue v
  | stall reads => Act.changeDevice cell fun _ d => d.stall reads

/-- the call on the first unit -/
def first? : PairStep → Option Flush
  | first f => some f
  | _ => none

/-- the call on the second unit -/
def second? : PairStep → Option Flush
  | second f => some f
  | _ => none

end PairStep

namespace Remapper
variable {u v : Remapper} {i j N : Nat} {c : Capabilities} {m : Machine σ} {env : Env σ}

/-- a unit that is ready may be stalled -/
theorem Ready.stall (h : u.Ready i c N m) (env : Env σ) {reads : Nat} (hpos : 0 < reads) (hle : reads ≤ N) :
    ∃ n, (Act.changeDevice i fun _ d => d.stall reads : Act σ RemapError Unit) env m = .ok () n ∧
      m.Driven u i [] n ∧ u.Ready i c N n := by
  obtain ⟨n, hn, ha, hd, hdev⟩ := Act.changeDevice_drives (ε := RemapError) (m := m) env u
    (f := fun _ d => d.stall reads) rfl (List.append_nil _).symm
  have hakin : ∀ offset, (m.devices.get i).unit.Settles offset → (n.devices.get i).unit.Settles offset := by
    rw [hdev]
    exact fun _ => id
  have hwakes : (n.devices.get i).Wakes N := by
    rw [hdev]
    refine ⟨⟨h.wakes.free.allowance, h.wakes.free.unscripted⟩, h.wakes.apart, fun _ => ⟨reads, hle, ?_⟩⟩
    exact if_neg (Nat.ne_of_gt hpos)
  refine ⟨n, hn, hd, h.registers, hd.caps.trans h.caps, h.extended, hwakes, fun q hu => ?_, fun hu offset ho =>
    hakin offset (h.settles hu offset ho)⟩
  have hh := h.queue q hu
  have hring : q.state n = q.state m := congrArg (·.get q.cell) ha.rings
  rw [hring, ha.memory]
  refine ⟨⟨hwakes, hh.page, ?_, ?_, ?_, ?_, hh.software, ?_, hh.behind, rfl⟩, fun _ => rfl⟩
  all_goals rw [hdev]
  · exact hh.on
  · exact hh.address
  · exact hh.head
  · exact hh.pointer
  · exact hh.count

/-- a call on a unit that is ready -/
theorem Ready.flush (h : u.Ready i c N m) (h2 : 2 ≤ env.patience) (hN : N ≤ env.patience) (hr : c.Reported)
    (f : Flush) : ∃ n rs, f.issue u env m = .ok () n ∧ m.Driven u i rs n ∧ u.Ready i c N n ∧
      n.invalidations i = m.invalidations i ++ u.heard c f.scope f.tag := by
  obtain ⟨n, rs, hn, hd, hrn, hh⟩ := h.invalidate h2 f.scope f.tag hN
  refine ⟨n, rs, by rw [Flush.issue_eq]; exact hn, hd, hrn, ?_⟩
  rw [hd.invalidations, hh fun _ => hr]

/-- what is done to one unit is not heard by another -/
theorem Separate.invalidations {rs : List Request} {n : Machine σ} (h : u.Separate v) (hu : u.registers = .device i)
    (hv : v.registers = .device j) (hd : m.Driven v j rs n) : n.invalidations i = m.invalidations i := by
  unfold Machine.invalidations
  rw [(h.untouched hu hv hd).device]

section
variable (h2 : 2 ≤ env.patience) (hN : N ≤ env.patience) (hr : c.Reported) {steps : List PairStep}
  (hsteps : ∀ reads, .stall reads ∈ steps → 0 < reads ∧ reads ≤ N)
include h2 hN hr hsteps

/-- every step ends, and each unit hears of the calls on it, in order -/
theorem run_heard (hu : u.Ready i c N m) (hv : v.Ready j c N m) (hs : u.Separate v) : ∃ n,
    (steps.forM (PairStep.run u v i)) env m = .ok () n ∧
      n.invalidations i = m.invalidations i
        ++ (steps.filterMap PairStep.first?).flatMap (fun f => u.heard c f.scope f.tag) ∧
      n.invalidations j = m.invalidations j
        ++ (steps.filterMap PairStep.second?).flatMap (fun f => v.heard c f.scope f.tag) := by
  induction steps generalizing m with
  | nil => exact ⟨m, rfl, (List.append_nil _).symm, (List.append_nil _).symm⟩
  | cons s steps ih =>
    have hrest : ∀ reads, .stall reads ∈ steps → 0 < reads ∧ reads ≤ N := fun reads hin =>
      hsteps reads (List.mem_cons_of_mem s hin)
    cases s with
    | first f =>
      obtain ⟨k, rs, hk, hd, huk, heq⟩ := hu.flush h2 hN hr f
      obtain ⟨n, hn, hi, hj⟩ := ih hrest huk (hv.untouched (hs.symm.untouched hv.registers hu.registers hd))
      refine ⟨n, Act.forM_cons_ok hk hn, ?_, ?_⟩
      · rw [hi, heq, List.append_assoc]
        rfl
      · rw [hj, hs.symm.invalidations hv.registers hu.registers hd]
        rfl
    | second f =>
      obtain ⟨k, rs, hk, hd, hvk, heq⟩ := hv.flush h2 hN hr f
      obtain ⟨n, hn, hi, hj⟩ := ih hrest (hu.untouched (hs.untouched hu.registers hv.registers hd)) hvk
      refine ⟨n, Act.forM_cons_ok hk hn, ?_, ?_⟩
      · rw [hi, hs.invalidations hu.registers hv.registers hd]
        rfl
      · rw [hj, heq, List.append_assoc]
        rfl
    | stall reads =>
      obtain ⟨hpos, hle⟩ := hsteps reads List.mem_cons_self
      obtain ⟨k, hk, hd, huk⟩ := hu.stall env hpos hle
      obtain ⟨n, hn, hi, hj⟩ := ih hrest huk (hv.untouched (hs.symm.untouched hv.registers hu.registers hd))
      refine ⟨n, Act.forM_cons_ok hk hn, ?_, ?_⟩
      · rw [hi, hd.invalidations]
        exact congrArg (· ++ _) (List.append_nil _)
      · rw [hj, hs.symm.invalidations hv.registers hu.registers hd]
        rfl

variable {base base' : Word} {cleaner cleaner' : Cleaner} {m₁ m₂ : Machine σ} (ha : env.Alone) (hh : env.Honest)
  (hi : (m.devices.get i).New c N) (hj : (m.devices.get j).New c N) (hij : i ≠ j)
  (hu : create base (.device i) true cleaner env m = .ok u m₁)
  (hv : create base' (.device j) false cleaner' env m₁ = .ok v m₂)
  (root root' : PhysAddr) (interrupts interrupts' : Option Word) (event event' : Option FaultEvent)
include ha hh hi hj hij hu hv

/-- two new units are brought up and used -/
theorem pair_heard (hcontext : ∀ k, c.faultSlot? Register.contextCommand ≠ some (k, false)) :
    u.isQueued = c.queued ∧ v.isQueued = false ∧ ∃ n,
      (do u.start root interrupts event
          v.start root' interrupts' event'
          steps.forM (PairStep.run u v i)) env m₂ = .ok () n ∧
      n.invalidations i = u.heard c .global 0
        ++ (steps.filterMap PairStep.first?).flatMap (fun f => u.heard c f.scope f.tag) ∧
      n.invalidations j = v.heard c .global 0
        ++ (steps.filterMap PairStep.second?).flatMap (fun f => v.heard c f.scope f.tag) := by
  obtain ⟨hdu, hau, hqu⟩ := of_create ha hh hi.free hu
  rw [hi.caps] at hdu
  have hj₁ : (m₁.devices.get j).New c N := (hau.devices j hij.symm) ▸ hj
  obtain ⟨hdv, hav, hqv⟩ := of_create ha hh hj₁.free hv
  rw [hj₁.caps] at hdv
  have hring : ∀ q, u.queue = some q → q.cell < m₁.rings.next := fun q hq => (hau.ring q hq).2
  have hs : u.Separate v := hav.separate hdv.registers hdu.registers hij hring
  have hsu : u.Startable i c N m₂ := (hdu.startable hau hqu hi).untouched (hav.untouched hij hring)
  have hsv : v.Startable j c N m₂ := hdv.startable hav hqv hj₁
  obtain ⟨k₁, rs₁, hk₁, hd₁, hr₁, he₁⟩ := hsu.start h2 hN (fun _ => hsu.settles hr hcontext) root interrupts event
  have hsv₁ : v.Startable j c N k₁ := hsv.untouched (hs.symm.untouched hdv.registers hdu.registers hd₁)
  obtain ⟨k₂, rs₂, hk₂, hd₂, hr₂, he₂⟩ :=
    hsv₁.start h2 hN (fun _ => hsv₁.settles hr hcontext) root' interrupts' event'
  obtain ⟨n, hn, hni, hnj⟩ := run_heard h2 hN hr hsteps
    (hr₁.untouched (hs.untouched hdu.registers hdv.registers hd₂)) hr₂ hs
  have hidle : ∀ {cell : Nat} {k : Machine σ}, (k.devices.get cell).unit.acted = #[] → k.invalidations cell = [] := by
    intro cell k h
    unfold Machine.invalidations
    rw [h]
    rfl
  have hi₂ : m₂.invalidations i = [] := hidle (by
    rw [hav.devices i hij, hau.like.unit]
    exact hi.idle)
  have hj₂ : m₂.invalidations j = [] := hidle (by
    rw [hav.like.unit]
    exact hj₁.idle)
  refine ⟨hdu.isQueued.trans (Bool.true_and _), hdv.isQueued.trans (Bool.false_and _), n, ?_, ?_, ?_⟩
  · rw [Act.bind_apply, hk₁]
    show (do v.start root' interrupts' event'
             steps.forM (PairStep.run u v i) : Act σ RemapError Unit) env k₁ = _
    rw [Act.bind_apply, hk₂]
    exact hn
  · rw [hni, hs.invalidations hdu.registers hdv.registers hd₂, hd₁.invalidations, hi₂, he₁ fun _ => hr]
    rfl
  · rw [hnj, hd₂.invalidations, hs.symm.invalidations hdv.registers hdu.registers hd₁, hj₂, he₂ fun _ => hr]
    rfl

/-- two units with the same capabilities, one with a queue: every call returns, having been acted on in
full, and after the same calls both units have acted on the same list -/
theorem disciplines_agree (hc : c.Disjoint) :
    u.isQueued = c.queued ∧ v.isQueued = false ∧ ∃ n,
      (do u.start root interrupts event
          v.start root' interrupts' event'
          steps.forM (PairStep.run u v i)) env m₂ = .ok () n ∧
      n.invalidations i
        = Flush.contexts.invalidations ++ (steps.filterMap PairStep.first?).flatMap Flush.invalidations ∧
      n.invalidations j
        = Flush.contexts.invalidations ++ (steps.filterMap PairStep.second?).flatMap Flush.invalidations ∧
      (steps.filterMap PairStep.first? = steps.filterMap PairStep.second? →
        n.invalidations i = n.invalidations j) := by
  obtain ⟨hqu, hqv, n, hn, hni, hnj⟩ := pair_heard h2 hN hr hsteps ha hh hi hj hij hu hv root root' interrupts
    interrupts' event event' fun k h => by
      rw [hc.faults _ (by decide)] at h
      cases h
  have hheard : ∀ w : Remapper, (fun f : Flush => w.heard c f.scope f.tag) = Flush.invalidations := fun w =>
    funext fun f => w.heard_of_disjoint hc f.scope f.tag
  rw [hheard] at hni hnj
  rw [heard_of_disjoint _ hc] at hni hnj
  exact ⟨hqu, hqv, n, hn, hni, hnj, fun h => by rw [hni, hnj, h]⟩

end

/-! ## two units of one machine -/

/-- an allocator that has a single page left -/
def onePage : Env Unit := { Env.offering [0x100] with patience := 2 }

theorem onePage_alone : onePage.Alone := fun m => ⟨m.client, rfl⟩

theorem onePage_honest : onePage.Honest :=
  show (Env.offering [0x100] : Env Unit).Honest from Env.honest_offering fun n hn => by
    rw [List.mem_singleton.mp hn]
    decide

/-- both units can be created -/
theorem exists_unitPair (hc : c.Apart) (hlevels : c.word.bit 10 = true) : ∃ u v m₁ m₂,
    create 0xfed90000 (.device 0) true .platform onePage (unitPair c) = .ok u m₁ ∧
    create 0xfed91000 (.device 1) false .platform onePage m₁ = .ok v m₂ := by
  have h₀ := unitPair_new hc 0 0 (by decide)
  have h₁ := unitPair_new hc 0 1 (by decide)
  obtain ⟨u, m₁, hu⟩ := create_ok 0xfed90000 true .platform onePage h₀.free
    (by rw [h₀.caps]; exact hlevels) fun _ k hk => by
      have hfree : 0x100 ∉ k.live := by
        rw [hk.live]
        exact Std.HashSet.not_mem_empty
      exact ⟨k, _, Env.offering_free hfree⟩
  obtain ⟨-, hau, -⟩ := of_create onePage_alone onePage_honest h₀.free hu
  have h₁' : (m₁.devices.get 1).New c 0 := (hau.devices 1 (by decide)) ▸ h₁
  obtain ⟨v, m₂, hv⟩ := create_ok 0xfed91000 false .platform onePage
    h₁'.free (by rw [h₁'.caps]; exact hlevels) fun hq => by
      rw [Bool.false_and] at hq
      cases hq
  exact ⟨u, v, m₁, m₂, hu, hv⟩

/-- the first unit is stalled, and then both are asked for the same -/
theorem disciplines_agree_stalled : ∃ (u v : Remapper) (m₂ n : Machine Unit),
    u.isQueued = true ∧ v.isQueued = false ∧
      (do u.start (.ofFrame 1) none none
          v.start (.ofFrame 1) none none
          [PairStep.stall 1, .first (.domain 7), .second (.domain 7)].forM (PairStep.run u v 0)) onePage m₂ = .ok () n ∧
      n.invalidations 0 = Flush.contexts.invalidations ++ (Flush.domain 7).invalidations ∧
      n.invalidations 0 = n.invalidations 1 := by
  have hapart := disjoint_default.apart
  obtain ⟨u, v, m₁, m₂, hu, hv⟩ := exists_unitPair hapart (by decide)
  have hpatience : 2 ≤ onePage.patience := by decide
  have hstall : ∀ reads, .stall reads ∈ [PairStep.stall 1, .first (.domain 7), .second (.domain 7)] →
      0 < reads ∧ reads ≤ 1 := by
    intro reads hin
    simp only [List.mem_cons, PairStep.stall.injEq, reduceCtorEq, List.not_mem_nil, or_false] at hin
    subst hin
    decide
  obtain ⟨hqu, hqv, n, hn, hni, -, heq⟩ := disciplines_agree hpatience (by decide)
    (⟨by decide, by decide⟩ : ({} : Capabilities).Reported) hstall onePage_alone onePage_honest
    (unitPair_new hapart 1 0 (by decide)) (unitPair_new hapart 1 1 (by decide)) (by decide)
    hu hv (.ofFrame 1) (.ofFrame 1) none none none none disjoint_default
  exact ⟨u, v, m₂, n, hqu, hqv, hn, hni, heq rfl⟩

/-- a fault record over the context command register, apart from the IOTLB registers and those of the queue -/
def covered : Capabilities := { faultOffset := Register.rootTable, faultRecords := 1 }

/-- the unit without a queue never acts on its context commands then, though its calls return -/
theorem covered_disagrees : covered.Apart ∧ covered.Reported ∧ covered.queued = true ∧
    ∃ (u v : Remapper) (m₁ m₂ n : Machine Unit),
      create 0xfed90000 (.device 0) true .platform onePage (unitPair covered) = .ok u m₁ ∧
      create 0xfed91000 (.device 1) false .platform onePage m₁ = .ok v m₂ ∧
      (do u.start (.ofFrame 1) none none
          v.start (.ofFrame 1) none none
          [PairStep.first .contexts, .second .contexts].forM (PairStep.run u v 0)) onePage m₂ = .ok () n ∧
      n.invalidations 0 = Flush.contexts.invalidations ++ Flush.contexts.invalidations ∧
      n.invalidations 1 ≠ n.invalidations 0 := by
  have hapart : covered.Apart := ⟨by decide, by decide, by decide⟩
  have hreported : covered.Reported := ⟨by decide, by decide⟩
  obtain ⟨u, v, m₁, m₂, hu, hv⟩ := exists_unitPair hapart (by decide)
  have hpatience : 2 ≤ onePage.patience := by decide
  have hstall : ∀ reads, .stall reads ∈ [PairStep.first .contexts, .second .contexts] → 0 < reads ∧ reads ≤ 0 := by
    intro reads hin
    simp only [List.mem_cons, reduceCtorEq, List.not_mem_nil, or_false] at hin
  obtain ⟨hqu, hqv, n, hn, hni, hnj⟩ := pair_heard hpatience (by decide) hreported hstall onePage_alone onePage_honest
    (unitPair_new hapart 0 0 (by decide)) (unitPair_new hapart 0 1 (by decide)) (by decide)
    hu hv (.ofFrame 1) (.ofFrame 1) none none none none fun k h => by
      rw [show covered.faultSlot? Register.contextCommand = some (0, true) by decide] at h
      cases h
  have hu' : ∀ s d, u.heard covered s d = s.invalidations d := fun s d =>
    if_pos (by rw [hqu]; rfl)
  have hv' : ∀ s d, v.heard covered s d = [⟨Descriptor.iotlbKind, s.code, d⟩] := fun s d =>
    if_neg (by
      rw [hqv]
      decide)
  simp only [hu'] at hni
  simp only [hv'] at hnj
  refine ⟨hapart, hreported, rfl, u, v, m₁, m₂, n, hu, hv, hn, hni, ?_⟩
  rw [hni, hnj]
  decide

end Remapper

end NestedPaging
