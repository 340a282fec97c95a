import NestedPaging.Proofs.Platform.Links
import NestedPaging.Proofs.Space.Reclamation

/-!
# Mappings that linger in the caches of units

A sync waits for processors and for nobody else: it has no unit drop what it cached. So a page that it frees may
still be walked by a device that is attached to the space, unless someone told the unit of the device between
the update that detached the page and the sync (`Platform.sync_heard`). Nothing makes anyone do so
(`Platform.sync_unheard`).
-/

namespace NestedPaging

variable {σ : Type}

namespace Platform
variable {caps : Nat → Capabilities} {p : Platform} {u : Remapper} {N cell : Nat} {c c' m k k' n : Machine σ}
  {env env' env₁ : Env σ} {s : Space} {d : Shootdown σ}

/-- a platform was brought up over new units, and was at work since -/
inductive AtWork (p : Platform) (caps : Nat → Capabilities) (N : Nat) (n : Machine σ) : Prop
  | up {config : RemapConfig} {cleaner : Cleaner} {sites : List UnitSite} {env : Env σ} {m₀ m : Machine σ} :
      env.Alone → env.Honest → 2 ≤ env.patience → N ≤ env.patience → (∀ s ∈ sites, s.IsNew caps N m₀) →
      (sites.map UnitSite.registers).Nodup → bringUp config cleaner sites env m₀ = .ok p m → p.Tended N m n →
      AtWork p caps N n

theorem AtWork.served (h : p.AtWork caps N m) : p.Served caps N m := by
  obtain ⟨ha, hh, h2, hN, hnew, hdistinct, hup, hrun⟩ := h
  exact (hrun.upkeep caps (running_bringUp ha hh h2 hN hnew hdistinct hup).1.served).1

/-- a sync from `m` to `n` that frees pages in `j`, where a unit was told of the domain of the space from `k`
to `k'` -/
structure Syncs (s : Space) (d : Shootdown σ) (cell : Nat) (k k' m j n : Machine σ) : Prop where
  /-- the pages that it frees lie below the tables that were listed when it began -/
  frees : Machine.Freed (s.takenPages m j) j n
  /-- each of these was detached from the tree -/
  detached : ∀ r ∈ (s.tree.tables m).retired, ∃ i : Nat, m.trace[i]? = some (.detached s.tree.cell r.table)
  /-- what was detached before the unit was told of it, the unit dropped before the sync -/
  heard : ∀ r ∈ (s.tree.tables m).retired, ∀ i < k.trace.size,
    m.trace[i]? = some (.detached s.tree.cell r.table) → m.Heard cell s.tag.bits i
  /-- what was detached later, with nothing but operations on spaces since, the unit did not drop -/
  unheard : ∀ {S : Repertoire σ}, Run S k' m → (∀ j, Run S j (d.before j)) →
    ∀ i : Nat, k'.trace.size ≤ i → ¬ n.Heard cell s.tag.bits i

/-- In every run over a platform and its device domains, a sync frees what was detached before it, and what was
detached before a unit was told of the domain, the unit dropped before the sync. -/
theorem sync_heard {cleaner : Option Cleaner} {tag : RegimeTag} {flushed : Nat} (hp : p.AtWork caps N c)
    (ho : ∀ j, p.Tended N j (env₁.supply j).1) (hs : Space.create .eptp cleaner tag env₁ c = .ok s c')
    (hk : p.Tended N c' k) (h2 : 2 ≤ env.patience) (hN : N ≤ env.patience) (ht : p.Tells N u s.tag.bits env k k')
    (hr : u.registers = .device cell) (hreach : u.Reaches (caps cell)) (hm : p.Tended N k' m)
    (hn : s.sync d env' m = .ok flushed n) :
    ∃ j, (s.shootDown d : Act σ TableError Nat) env' (s.opened (s.enter m)) = .ok flushed j ∧
      Syncs s d cell k k' m j n := by
  have hcreate : p.Tended N c c' := by
    have h : p.Tended N c ((Call.createSpace .eptp cleaner tag).perform.after env₁ c) := .call _ c ho
    rwa [show (Call.createSpace .eptp cleaner tag).perform.after env₁ c = c' from
      (Act.after_map ..).trans (Act.after_of_ok hs)] at h
  obtain ⟨hserved, -⟩ := (hcreate.trans hk).upkeep caps hp.served
  obtain ⟨hserved', htold, hheard⟩ := hserved.tells h2 hN ht hr hreach
  obtain ⟨-, hlater⟩ := hm.upkeep caps hserved'
  obtain ⟨-, hearlier⟩ := hk.upkeep caps (hcreate.upkeep caps hp.served).1
  obtain ⟨es, hes, hlisted⟩ := (hearlier.trans htold).trans hlater
  have ⟨fs, hfs, _⟩ := hlater
  obtain ⟨hphase, hfree, hend⟩ := s.sync_ok hn
  have hcount := s.sync_active env' hphase hfree
  rw [hn] at hcount
  injection hcount with hcount _
  have htaken : s.takenPages (s.enter m) (s.shot d (s.opened (s.enter m)))
      = s.takenPages m (s.shot d (s.opened (s.enter m))) := by
    unfold Space.takenPages
    rw [Space.tables_enter]
  refine ⟨s.shot d (s.opened (s.enter m)), ?_, ⟨?_, fun r hr => ?_, fun r _ i hi _ => (hheard i hi).logs hfs,
    fun hrun hbefore i hi => ?_⟩⟩
  · rw [s.shootDown_apply, hcount]
  · have hfreed := Machine.freed_giveBackAll (s.shot d (s.opened (s.enter m)))
      (s.takenPages (s.enter m) (s.shot d (s.opened (s.enter m))))
    rw [htaken] at hfreed
    rw [hend, Space.settled, htaken]
    exact ⟨hfreed.trace, hfreed.live⟩
  · obtain ⟨_, _, _, hnew⟩ := Space.tables_create hs
    have hnone : r ∉ (c'.trees.get s.tree.cell).retired.toList := by
      rw [show c'.trees.get s.tree.cell = {} from hnew]
      exact List.not_mem_nil
    obtain ⟨i, hi⟩ := List.mem_iff_getElem?.mp ((hlisted s.tree.cell r hr).resolve_left hnone)
    exact ⟨c'.trace.size + i, by rw [hes.getElem?_new, hi]⟩
  · have hsync := (Machine.Aloof.permits .trans id).sync (s := s) (fun j => (hbefore j).aloof)
      (fun _ _ => trivial) env' m
    rw [Act.after_of_ok hn] at hsync
    exact (hrun.aloof.trans hsync).quiet.unheard hi

/-! ## a table of a space with a device -/

section
variable [Registry σ]

/-- an update of a space that is up -/
theorem Among.update {q : Mapping} {order covered : Nat} (h : p.Among caps N m) (hup : s.IsUp m) (hh : env.Honest)
    (hl : Lone fun j => (env.supply j).1) (hn : s.update q order env m = .ok covered n) :
    p.Among caps N n ∧ s.IsUp n ∧ p.contexts.entries n.memory = p.contexts.entries m.memory := by
  have hafter : (s.perform (.update q order)).after env m = n := (Act.after_map ..).trans (Act.after_of_ok hn)
  have hg := Operation.goes_lone (.space s (.update q order)) h.order hup.mem hh hl
  rw [show (Operation.space s (.update q order)).after env m = n from hafter] at hg
  have haloof := (Machine.Aloof.permits .trans id).call (.on s (.update q order)) hl.aloof (fun _ _ _ => trivial) m
  rw [show (Call.on s (.update q order)).perform.after env m = n from hafter] at haloof
  refine ⟨h.goes hg haloof.quiet nofun fun _ _ => nofun, ⟨(hg.guards _ hup.mem).stays (.inr (.inl trivial)), ?_⟩,
    hg.entries h.order h.contexts nofun⟩
  rw [← hafter]
  exact (s.phase_perform hl.alone (.update q order) m).trans hup.active

end

end Platform

/-- the tree of a space that is up is at rest if nobody walks -/
theorem Space.IsUp.rests [Registry σ] {s : Space} {m : Machine σ} (hup : s.IsUp m) (hm : m.Orderly m.objects)
    (hw : (s.tree.state m).walkers = 0) : ∃ others own, s.tree.Rests others own m := by
  obtain ⟨hunreleased, hwhole⟩ := hm.sound _ hup.mem
  obtain ⟨others, own, howns⟩ := hwhole (hunreleased hup.active)
  exact ⟨others, own, howns, hw⟩

namespace Platform
variable {p : Platform}

/-- the tables and the units of a platform -/
def objects (p : Platform) : Set Object := {o | o = .contexts p.contexts ∨ ∃ u ∈ p.units, o = .unit u}

/-- whoever runs the machine notes a platform that came up without queues -/
theorem Running.among {caps : Nat → Capabilities} {N : Nat} {m : Machine (Set Object)} (h : p.Running caps N m)
    (hq : ∀ u ∈ p.units, u.queue = none) : p.Among caps N { m with client := p.objects } := by
  have hframes : ∀ u ∈ p.units, ∀ i, i ∉ u.frames := by
    rintro u hu i ⟨q, hq', -⟩
    cases (hq u hu).symm.trans hq'
  have hcells : ∀ u ∈ p.units, ∀ c, c ∉ (Object.unit u).cells := by
    rintro u hu c ⟨q, hq', -⟩
    cases (hq u hu).symm.trans hq'
  refine ⟨⟨?_, ?_, ?_, ?_, ?_, nofun, ?_⟩, .inl rfl, fun u hu => .inr ⟨u, hu, rfl⟩, h.served.quiet ?_⟩
  · rintro b (rfl | ⟨u, hu, rfl⟩)
    · exact h.sound
    · exact fun q hq' => nomatch (hq u hu).symm.trans hq'
  · rintro b (rfl | ⟨u, hu, rfl⟩)
    · exact h.live
    · exact fun i hi => absurd hi (hframes u hu i)
  · rintro b hb b' (rfl | ⟨v, hv, rfl⟩) hne
    · rcases hb with rfl | ⟨u, hu, rfl⟩
      · exact absurd rfl hne
      · exact Set.disjoint_left.mpr fun i hi => absurd hi (hframes u hu i)
    · exact Set.disjoint_right.mpr fun i hi => absurd hi (hframes v hv i)
  · rintro b (rfl | ⟨u, hu, rfl⟩)
    · exact nofun
    · exact fun c hc => absurd hc (hcells u hu c)
  · rintro b hb b' (rfl | ⟨v, hv, rfl⟩) hne
    · exact Set.disjoint_right.mpr fun c hc => hc.elim
    · exact Set.disjoint_right.mpr fun c hc => absurd hc (hcells v hv c)
  · rintro b (rfl | ⟨u, hu, rfl⟩)
    · exact fun i hi => hi.elim
    · obtain ⟨cell, -, hready⟩ := h.units u hu
      show u.registers.window ⊆ _
      rw [hready.registers]
      exact fun i hi => hi.elim
  · exact ⟨rfl, rfl, [], .refl rfl, nofun⟩

def tenFrames : List Nat := [0x100, 0x101, 0x102, 0x103, 0x104, 0x105, 0x106, 0x107, 0x108, 0x109]

/-- an allocator with ten pages -/
def tenPages : Env (Set Object) := { Env.offering tenFrames with patience := 2 }

theorem tenFrames_lt : ∀ i ∈ tenFrames, i < 2 ^ 36 := by decide

theorem tenPages_honest : tenPages.Honest :=
  show (Env.offering tenFrames : Env (Set Object)).Honest from Env.honest_offering tenFrames_lt

theorem tenPages_lone : Lone fun j => (tenPages.supply j).1 := fun j => ⟨j.client, rfl, rfl⟩

/-- a platform comes up over one new unit -/
theorem exists_atWork : ∃ (p : Platform) (u : Remapper) (m : Machine (Set Object)),
    p.AtWork (fun _ => {}) 0 m ∧ p.Among (fun _ => {}) 0 m ∧ p.unit? 0xfed90000 = some u ∧ u.registers = .device 0 ∧
      u.supportsLevels 4 = true ∧ m.Few 3 := by
  have hc := Remapper.disjoint_default
  have hr : ({} : Capabilities).Reported := ⟨by decide, by decide⟩
  have hpatience : 2 ≤ (fourPages : Env (Set Object)).patience := Nat.le_refl 2
  have hfew : bareMachine.Few 0 := ⟨[], Nat.le_refl 0, fun _ hi => absurd hi Std.HashSet.not_mem_empty⟩
  have hnew : (bareMachine.devices.get 0).New {} 0 := Remapper.unitPair_new hc.apart 0 0 (by decide)
  obtain ⟨p, m, u, hup, hunits, hdesc, hfew⟩ := exists_bringUp ⟨false, false, none⟩ 0xfed90000 hfew hnew
    (by decide) (by decide) fun u k hu _ => hu.settles hr fun i hi => by
      rw [hc.faults _ (by decide)] at hi
      cases hi
  have hsites : ∀ s ∈ [(⟨0xfed90000, .device 0⟩ : UnitSite)], s.IsNew (fun _ => {}) 0 bareMachine :=
    unitPair_isNew hc 0xfed90000 0
  obtain ⟨hrunning, -⟩ := running_bringUp fourPages_alone fourPages_honest hpatience (Nat.zero_le _) hsites
    (List.nodup_singleton _) hup
  have hqueue : ∀ v ∈ p.units, v.queue = none := by
    rw [hunits]
    intro v hv
    rw [List.mem_singleton.mp hv]
    exact hdesc.queue_eq_none
  refine ⟨p, u, { m with client := p.objects }, ?_, hrunning.among hqueue, hdesc.base ▸ unit?_singleton hunits,
    hdesc.registers, hdesc.supportsLevels.trans (by decide), hfew⟩
  exact .up fourPages_alone fourPages_honest hpatience (Nat.zero_le _) hsites (List.nodup_singleton _) hup (.client m _)

/-- a space is created in `c`, and then a device is attached to it until `k` -/
structure Attached (p : Platform) (u : Remapper) (s : Space) (c c' k : Machine (Set Object)) : Prop where
  work : p.AtWork (fun _ => {}) 0 c
  created : Space.create .eptp none ⟨7⟩ fourPages c = .ok s c'
  tended : p.Tended 0 c' k
  among : p.Among (fun _ => {}) 0 k
  up : s.IsUp k
  entry : p.contexts.entries k.memory 0x310 = s.attachment.words
  unit : p.unit? 0xfed90000 = some u
  registers : u.registers = .device 0
  levels : u.supportsLevels 4 = true
  format : s.attachment.levels = 4

theorem exists_attached : ∃ p u s c c' k, Attached p u s c c' k ∧ k.trees.get s.tree.cell = {} ∧ k.Few 5 := by
  obtain ⟨p, u, c, hwork, hamong, hunit, hregisters, hlevels, hfew⟩ := exists_atWork
  obtain ⟨s, c', m, hcreate, hm, -, hamong, hup, -, -, -, hformat, hfew⟩ := exists_space hamong hfew (by decide)
  have htree : m.trees.get s.tree.cell = {} := by
    obtain ⟨_, _, _, htree⟩ := Space.tables_create hcreate
    exact hm ▸ htree
  have hspare : m.Spare tenFrames 1 := hfew.spare (by decide) (by decide)
  obtain ⟨page, hpage⟩ := hspare.next
  have hpatience : 2 ≤ tenPages.patience := Nat.le_refl 2
  obtain ⟨k, hk, hentries, htaken, hjoint, hamong'⟩ := hamong.attach tenPages_honest tenPages_lone hpatience
    (Nat.zero_le _) hunit (show 0x310 < 0x10000 by decide) (hformat ▸ hlevels) fun _ => by
      rw [show tenPages.supply m = _ from hpage]
      exact Option.some_ne_none _
  have hgoes := hjoint.goes hamong.order
  have hout : Object.space s ∉ ({.contexts p.contexts, .unit u} : Set Object) := nofun
  have hattached : p.Tended 0 m k := by
    have ht : p.Tended 0 m _ := .configure 0xfed90000 s.attachment 0x310 true m hpatience (Nat.zero_le _)
      fun j => .refl j
    rwa [Act.after_of_ok hk] at ht
  refine ⟨p, u, s, c, c', k, ⟨hwork, hcreate, .trans (hm ▸ .client c' _) hattached, hamong', hup.kept hgoes hamong.order hout,
    ?_, hunit, hregisters, hlevels, hformat⟩, ?_, hfew.grow fun i hi hin => (htaken i hi hin).2⟩
  · rw [hentries, show (784 : Nat).toUInt16 = (0x310 : RequesterId) from rfl, Function.update_self]
  · rw [← htree]
    exact (hgoes.kept hamong.order hup.mem hout).2.cells (.tree s.tree.cell) (.inr rfl)

/-- a table `q` is detached from the space between `k` and `m`, while the device stays attached -/
structure Detached (p : Platform) (s : Space) (q : PhysAddr) (k m : Machine (Set Object)) : Prop where
  run : Run s.solo k m
  among : p.Among (fun _ => {}) 0 m
  up : s.IsUp m
  entry : p.contexts.entries m.memory 0x310 = s.attachment.words
  still : (s.tree.state m).walkers = 0
  retired : ⟨q, 0⟩ ∈ (s.tree.tables m).retired
  since : ∀ r ∈ (s.tree.tables m).retired, ∃ i : Nat, k.trace.size ≤ i ∧
    m.trace[i]? = some (.detached s.tree.cell r.table)

theorem Attached.exists_detached {u : Remapper} {s : Space} {c c' k : Machine (Set Object)}
    (h : p.Attached u s c c' k) (hnew : k.trees.get s.tree.cell = {}) (hfew : k.Few 5) : ∃ q m, p.Detached s q k m := by
  have hlevel : s.tree.format.rootLevel = 3 := congrArg (· - 1) h.format
  have hspare : k.Spare tenFrames 3 := hfew.spare (by decide) (by decide)
  obtain ⟨_, _, hrests⟩ := h.up.rests h.among.order (congrArg TreeState.walkers hnew)
  obtain ⟨_, _, j, m, q, hj, hm, hrun, -, hq⟩ := Space.update_twice tenFrames_lt hrests h.up.active (by rw [hlevel]; exact hspare)
  have hh : (Env.offering tenFrames : Env (Set Object)).Honest := Env.honest_offering tenFrames_lt
  have hl : Lone fun j : Machine (Set Object) => ((Env.offering tenFrames : Env (Set Object)).supply j).1 := fun j =>
    ⟨j.client, rfl, rfl⟩
  obtain ⟨hamong, hup, hentries⟩ := h.among.update h.up hh hl hj
  obtain ⟨hamong', hup', hentries'⟩ := hamong.update hup hh hl hm
  obtain ⟨_, hcarried⟩ := Space.carried_run hrun _ _ hrests
  obtain ⟨es, hes, hlisted⟩ := hrun.aloof.lists
  refine ⟨q, m, hrun, hamong', hup', ?_, hcarried.rests.still, hq, fun r hr => ?_⟩
  · rw [hentries', hentries]
    exact h.entry
  · have hnone : r ∉ (k.trees.get s.tree.cell).retired.toList := by
      rw [hnew]
      exact List.not_mem_nil
    obtain ⟨i, hi⟩ := List.mem_iff_getElem?.mp ((hlisted s.tree.cell r hr).resolve_left hnone)
    exact ⟨k.trace.size + i, Nat.le_add_right .., by rw [hes.getElem?_new, hi]⟩

theorem Detached.recorded {s : Space} {q : PhysAddr} {k m : Machine (Set Object)} (h : p.Detached s q k m) :
    s.Recorded m := fun r hr => by
  obtain ⟨i, -, hi⟩ := h.since r hr
  exact ⟨i, hi⟩

/-- a table is detached from a space with a device, and the sync after that frees it though no unit is told -/
theorem sync_unheard : ∃ (p : Platform) (u : Remapper) (s : Space) (q : PhysAddr) (i flushed : Nat)
    (c c' k m n : Machine (Set Object)),
    p.Attached u s c c' k ∧ p.Detached s q k m ∧ m.trace[i]? = some (.detached s.tree.cell q) ∧
      s.sync ⟨id, 1⟩ tenPages m = .ok flushed n ∧ p.contexts.entries n.memory 0x310 = s.attachment.words ∧
      q.frame ∈ m.live ∧ q.frame ∉ n.live ∧ ¬ n.Heard 0 s.tag.bits i := by
  obtain ⟨p, u, s, c, c', k, hattached, hnew, hfew⟩ := exists_attached
  obtain ⟨q, m, h⟩ := hattached.exists_detached hnew hfew
  obtain ⟨_, _, hrests⟩ := h.up.rests h.among.order h.still
  have hd : ∀ j : Machine (Set Object), Run s.solo j ((⟨id, 1⟩ : Shootdown (Set Object)).before j) := fun j => .refl j
  obtain ⟨flushed, n, hn⟩ := Space.sync_ends hrests h.up.active hd tenPages
  obtain ⟨j, -, hreclaims⟩ := Space.reclaims_of_sync hrests h.recorded hd hn
  obtain ⟨i, hi, hevent⟩ := h.since _ h.retired
  obtain ⟨_, howned⟩ := hrests.owns.record h.retired
  have hlone : Lone (id : Machine (Set Object) → Machine (Set Object)) := fun j => ⟨j.client, rfl, rfl⟩
  have hgoes := Operation.goes_lone (.sync s ⟨id, 1⟩) h.among.order h.up.mem tenPages_honest hlone
  rw [show (Operation.sync s ⟨id, 1⟩).after tenPages m = n from Act.after_of_ok hn] at hgoes
  have hsync := (Machine.Aloof.permits .trans id).sync (s := s) (d := ⟨id, 1⟩) (fun j => hlone.aloof j)
    (fun _ _ => trivial) tenPages m
  rw [Act.after_of_ok hn] at hsync
  refine ⟨p, u, s, q, i, flushed, c, c', k, m, n, hattached, h, hevent, hn, ?_, hrests.owns.inUse_page howned,
    (hreclaims.freed h.retired).2, (h.run.aloof.trans hsync).quiet.unheard hi⟩
  rw [hgoes.entries h.among.order h.among.contexts nofun]
  exact h.entry

/-- the device is attached once more before the sync, so that its unit drops what it cached -/
theorem sync_heard_told : ∃ (p : Platform) (u : Remapper) (s : Space) (q : PhysAddr) (i flushed : Nat)
    (c c' k m m' n : Machine (Set Object)),
    p.Attached u s c c' k ∧ p.Detached s q k m ∧ m'.trace[i]? = some (.detached s.tree.cell q) ∧
      p.configure 0xfed90000 s.attachment 0x310 true tenPages m = .ok () m' ∧
      s.sync ⟨id, 1⟩ tenPages m' = .ok flushed n ∧ q.frame ∉ n.live ∧ m'.Heard 0 s.tag.bits i := by
  obtain ⟨p, u, s, c, c', k, hattached, hnew, hfew⟩ := exists_attached
  obtain ⟨q, m, h⟩ := hattached.exists_detached hnew hfew
  have hpatience : 2 ≤ tenPages.patience := Nat.le_refl 2
  have htable : p.contexts.table? m.memory (RequesterId.bus (0x310 : Nat).toUInt16) ≠ none := fun hnone => by
    have hentry := (ContextTables.entries_of_none hnone).symm.trans h.entry
    have hpresent := ContextTables.isPresentEntry_present s.tree.root.bits
    rw [show s.tree.root.bits ||| presentBit = 0 from (congrArg EntryWords.lo hentry).symm] at hpresent
    cases hpresent
  obtain ⟨m', hm', -, -, hjoint, hamong⟩ := h.among.attach tenPages_honest tenPages_lone hpatience
    (Nat.zero_le _) hattached.unit (show 0x310 < 0x10000 by decide) (hattached.format ▸ hattached.levels)
    fun hnone => absurd hnone htable
  -- the space is as it was
  have hgoes := hjoint.goes h.among.order
  have hout : Object.space s ∉ ({.contexts p.contexts, .unit u} : Set Object) := nofun
  have hstate : s.tree.state m' = s.tree.state m :=
    (hgoes.kept h.among.order h.up.mem hout).2.cells (.tree s.tree.cell) (.inr rfl)
  have hup := h.up.kept hgoes h.among.order hout
  obtain ⟨_, _, hrests⟩ := hup.rests hamong.order ((congrArg TreeState.walkers hstate).trans h.still)
  have hretired : ⟨q, 0⟩ ∈ (s.tree.tables m').retired := by
    rw [show (s.tree.tables m').retired = (s.tree.tables m).retired from
      congrArg (fun st : TreeState => st.retired.toList) hstate]
    exact h.retired
  have hd : ∀ j : Machine (Set Object), Run s.solo j ((⟨id, 1⟩ : Shootdown (Set Object)).before j) := fun j => .refl j
  obtain ⟨flushed, n, hn⟩ := Space.sync_ends hrests hup.active hd tenPages
  -- its unit was told after the table was detached
  have htells : p.Tells 0 u s.tag.bits tenPages m m' := .configure hattached.unit (fun j => .refl j) hm'
  have hreach : u.Reaches {} := fun _ => ⟨by decide, by decide⟩
  obtain ⟨-, ⟨es, hes, -⟩, -⟩ := h.among.served.tells hpatience (Nat.zero_le _) htells hattached.registers hreach
  obtain ⟨i, -, hevent⟩ := h.since _ h.retired
  have hevent' := hes.getElem?_some hevent
  obtain ⟨j, -, hsyncs⟩ := sync_heard hattached.work (fun j => .refl j) hattached.created
    (hattached.tended.trans (.of_run h.run)) hpatience (Nat.zero_le _) htells hattached.registers hreach (.refl m') hn
  obtain ⟨_, -, hreclaims⟩ := Space.reclaims_of_sync hrests hsyncs.detached hd hn
  exact ⟨p, u, s, q, i, flushed, c, c', k, m, m', n, hattached, h, hevent', hm', hn, (hreclaims.freed hretired).2,
    hsyncs.heard _ hretired i (Array.getElem?_eq_some_iff.mp hevent).1 hevent'⟩

end Platform

end NestedPaging
