import NestedPaging.Proofs.Unit.BringUp

/-!
# Which global commands are triggered

The word that issues a command is made of the status of the unit, and the bits of one-shot commands stay set in
it. So whether a write triggers what it is meant to depends on all commands before. `Command.Issued` says of a
trace that each write asked for one command, and that the unit did this one or, if it holds a state that is on
already, nothing; and how the status changed.

* `Act.Issues`               however an action ends, it issued the first of the commands it asks for, and all of them
  if it ends with a result;
* `Remapper.command_issues`  one command;
* `Remapper.start_issues`    bring-up.
-/

namespace NestedPaging

variable {σ ε α β : Type}

/-! ## traces of commands -/

namespace Command

/-- the word that issues `b` to a unit with the status `s` -/
def issuing (s b : UInt32) : UInt32 := (s &&& ~~~oneShot) ||| b

/-- what the unit does then: a one-shot command each time, and another unless its state is on already -/
def answered (s b : UInt32) : List UInt32 := if b &&& oneShot ≠ 0 ∨ s &&& b = 0 then [b] else []

end Command

/-- is the event a write to the global command register of the device `cell`, or a global command that its unit acts
on? -/
def Event.IsGlobal (cell : Nat) : Event → Prop
  | .accessed i _ a => i = cell ∧ a.wide = false ∧ a.isWrite = true ∧ a.offset = Register.globalCommand
  | .acted i (.global _) => i = cell
  | _ => False

theorem Event.not_isGlobal_read (cell i label offset : Nat) (wide : Bool) (w : Word) :
    ¬ (Event.accessed i label ⟨wide, false, offset, w⟩).IsGlobal cell := fun h => Bool.false_ne_true h.2.2.1

/-- Among the events each write to the global command register of the device `cell` asks for one of the commands `bs`,
in this order. The unit, whose status was `s` and is `s'` at the end, acts on it at once, and never on another. -/
inductive Command.Issued (cell : Nat) : UInt32 → List Event → UInt32 → List UInt32 → Prop
  | nil (s : UInt32) : Issued cell s [] s []
  | other {e : Event} {es : List Event} {s s' : UInt32} {bs : List UInt32} :
      ¬ e.IsGlobal cell → Issued cell s es s' bs → Issued cell s (e :: es) s' bs
  | command {label : Nat} {b : UInt32} {es : List Event} {s s' : UInt32} {bs : List UInt32} :
      b ∈ issued → Issued cell (s ||| b) es s' bs →
      Issued cell s (.accessed cell label ⟨false, true, Register.globalCommand, (issuing s b).toUInt64⟩ ::
        (((answered s b).map fun b => .acted cell (.global b)) ++ es)) s' (b :: bs)

namespace Command.Issued
variable {cell : Nat} {s s' s'' : UInt32} {es fs : List Event} {bs bs' : List UInt32}

theorem others (h : ∀ e ∈ es, ¬ e.IsGlobal cell) (s : UInt32) : Issued cell s es s [] := by
  induction es with
  | nil => exact .nil s
  | cons e es ih => exact .other (h e List.mem_cons_self) (ih fun e he => h e (List.mem_cons_of_mem _ he))

/-- a write that issues a command, and the answer -/
theorem single {label : Nat} {b : UInt32} (hb : b ∈ issued) (s : UInt32) :
    Issued cell s (.accessed cell label ⟨false, true, Register.globalCommand, (issuing s b).toUInt64⟩ ::
      (answered s b).map fun b => .acted cell (.global b)) (s ||| b) [b] := by
  have h : Issued cell s (.accessed cell label ⟨false, true, Register.globalCommand, (issuing s b).toUInt64⟩ ::
      (((answered s b).map fun b => .acted cell (.global b)) ++ [])) (s ||| b) [b] := .command hb (.nil _)
  rwa [List.append_nil] at h

theorem append (h : Issued cell s es s' bs) (h' : Issued cell s' fs s'' bs') :
    Issued cell s (es ++ fs) s'' (bs ++ bs') := by
  induction h with
  | nil => exact h'
  | other he _ ih => exact .other he (ih h')
  | command hb _ ih =>
    rw [List.cons_append, List.append_assoc]
    exact .command hb (ih h')

/-- a command adds its bit to the status -/
theorem status_eq (h : Issued cell s es s' bs) : s' = bs.foldl (· ||| ·) s := by
  induction h with
  | nil => rfl
  | other _ _ ih => exact ih
  | command _ _ ih => exact ih

/-- nothing is ever switched off -/
theorem grows (h : Issued cell s es s' bs) : s &&& s' = s := by
  induction h with
  | nil s => exact UInt32.and_self
  | other _ _ ih => exact ih
  | @command _ b _ s s' _ _ _ ih =>
    refine ext_bit fun i => ?_
    have hi : ((s.toBitVec.getLsbD i || b.toBitVec.getLsbD i) && s'.toBitVec.getLsbD i)
        = (s.toBitVec.getLsbD i || b.toBitVec.getLsbD i) := by
      rw [← BitVec.getLsbD_or, ← BitVec.getLsbD_and, ← UInt32.toBitVec_or, ← UInt32.toBitVec_and, ih]
    rw [UInt32.toBitVec_and, BitVec.getLsbD_and]
    revert hi
    cases s.toBitVec.getLsbD i <;> simp

/-- the unit acts on a command in answer to it, if it is a one-shot command or its state is not on -/
theorem mem_answers {b b' : UInt32} : Event.acted cell (.global b) ∈ ((answered s b').map fun b => .acted cell (.global b)) ↔
    b = b' ∧ (b' &&& oneShot ≠ 0 ∨ s &&& b' = 0) := by
  have hinj : Function.Injective fun b => Event.acted cell (.global b) := fun b b' h => by
    injection h with _ h
    injection h
  rw [List.mem_map_of_injective hinj]
  unfold answered
  split
  · rename_i h
    rw [List.mem_singleton, and_iff_left h]
  · rename_i h
    rw [iff_false_intro h, and_false, iff_false]
    exact List.not_mem_nil

/-- the unit acts on no command but those that are issued -/
theorem mem (h : Issued cell s es s' bs) {b : UInt32} (hb : Event.acted cell (.global b) ∈ es) : b ∈ bs := by
  induction h with
  | nil => cases hb
  | other he _ ih => exact ih ((List.mem_cons.mp hb).resolve_left fun e => he (e ▸ rfl))
  | command _ _ ih =>
    rcases List.mem_append.mp ((List.mem_cons.mp hb).resolve_left nofun) with hb | hb
    · exact List.mem_cons.mpr (.inl (mem_answers.mp hb).1)
    · exact List.mem_cons_of_mem _ (ih hb)

/-- a one-shot command is acted on whenever it is issued -/
theorem acted_of_oneShot (h : Issued cell s es s' bs) {b : UInt32} (hb : b ∈ bs) (hone : b &&& oneShot ≠ 0) :
    Event.acted cell (.global b) ∈ es := by
  induction h with
  | nil => cases hb
  | other _ _ ih => exact List.mem_cons_of_mem _ (ih hb)
  | command _ _ ih =>
    refine List.mem_cons_of_mem _ (List.mem_append.mpr ?_)
    rcases List.mem_cons.mp hb with rfl | hb
    · exact .inl (mem_answers.mpr ⟨rfl, .inl hone⟩)
    · exact .inr (ih hb)

/-- any other is acted on if it is issued and its state is not on yet -/
theorem acted_of_off (h : Issued cell s es s' bs) {b : UInt32} (hb : b ∈ bs) (hissued : b ∈ issued) (hoff : s &&& b = 0) :
    Event.acted cell (.global b) ∈ es := by
  induction h with
  | nil => cases hb
  | other _ _ ih => exact List.mem_cons_of_mem _ (ih hb hoff)
  | @command _ b' _ s _ _ hissued' _ ih =>
    refine List.mem_cons_of_mem _ (List.mem_append.mpr ?_)
    by_cases hne : b = b'
    · exact .inl (mem_answers.mpr ⟨hne, .inr (hne ▸ hoff)⟩)
    · refine .inr (ih ((List.mem_cons.mp hb).resolve_left hne) ?_)
      rw [Emulated.or_and, hoff, issued_and hissued hissued' fun e => hne e.symm, UInt32.zero_or]

/-- what is on stays on -/
theorem still_on (h : Issued cell s es s' bs) {b : UInt32} (hb : s &&& b ≠ 0) : s' &&& b ≠ 0 := fun h0 => hb (by
  rw [← h.grows, UInt32.and_assoc, h0, UInt32.and_zero])

/-- what was issued is on -/
theorem on (h : Issued cell s es s' bs) {b : UInt32} (hb : b ∈ bs) : s' &&& b ≠ 0 := by
  induction h with
  | nil => cases hb
  | other _ _ ih => exact ih hb
  | command hissued htail ih =>
    rcases List.mem_cons.mp hb with rfl | hb
    · refine htail.still_on ?_
      rw [Emulated.or_and, UInt32.and_self]
      exact or_issued_ne_zero hissued _
    · exact ih hb

/-- if all that is issued is on already, the unit acts on one-shot commands at most -/
theorem oneShot_of_on (h : Issued cell s es s' bs) (hon : ∀ b ∈ bs, s &&& b ≠ 0) {b : UInt32}
    (hb : Event.acted cell (.global b) ∈ es) : b &&& oneShot ≠ 0 := by
  induction h with
  | nil => cases hb
  | other he _ ih => exact ih hon ((List.mem_cons.mp hb).resolve_left fun e => he (e ▸ rfl))
  | @command label b' _ s _ _ hissued _ ih =>
    have hstep : Issued cell s (.accessed cell label ⟨false, true, Register.globalCommand, (issuing s b').toUInt64⟩ ::
      (answered s b').map fun b => .acted cell (.global b)) (s ||| b') [b'] := single hissued s
    rcases List.mem_append.mp ((List.mem_cons.mp hb).resolve_left nofun) with hb | hb
    · obtain ⟨rfl, hanswered⟩ := mem_answers.mp hb
      exact hanswered.resolve_right (hon b List.mem_cons_self)
    · exact ih (fun b hb => hstep.still_on (hon b (List.mem_cons_of_mem _ hb))) hb

end Command.Issued

/-! ## what a unit does about writes -/

namespace Emulated
variable {e e' e'' : Emulated} {memory : Memory}

/-- the unit acts on no global command -/
structure Mild (e e' : Emulated) : Prop where
  status : e'.status = e.status
  violations : e'.violations = e.violations
  acted : ∃ rs, e'.acted.toList = e.acted.toList ++ rs ∧ ∀ r ∈ rs, ∀ b, r ≠ .global b

theorem Mild.of_acted (hs : e'.status = e.status) (hv : e'.violations = e.violations) (ha : e'.acted = e.acted) :
    e.Mild e' := ⟨hs, hv, [], by rw [ha, List.append_nil], nofun⟩

theorem Mild.refl (e : Emulated) : e.Mild e := .of_acted rfl rfl rfl

theorem Mild.trans (h : e.Mild e') (h' : e'.Mild e'') : e.Mild e'' := by
  obtain ⟨rs, hrs, hr⟩ := h.acted
  obtain ⟨rs', hrs', hr'⟩ := h'.acted
  refine ⟨h'.status.trans h.status, h'.violations.trans h.violations, rs ++ rs', ?_, fun r hmem => ?_⟩
  · rw [hrs', hrs, List.append_assoc]
  · exact (List.mem_append.mp hmem).elim (hr r) (hr' r)

theorem Mild.act (e : Emulated) {r : Request} (hr : ∀ b, r ≠ .global b) : e.Mild (e.act r) :=
  ⟨rfl, rfl, [r], Array.toList_push, fun _ h => List.mem_singleton.mp h ▸ hr⟩

theorem mild_consume (memory : Memory) (e : Emulated) : e.Mild (consume memory e) := by
  refine consume_keeps memory Mild.refl (fun e e' d head h => ?_) e
  have hact : e.Mild (e.act (.queued d)) := .act e fun _ => nofun
  have hmoved : (e.act (.queued d)).Mild { e.act (.queued d) with head } := .of_acted rfl rfl rfl
  exact hact.trans (hmoved.trans h)

theorem mild_write64 (memory : Memory) (e : Emulated) (offset : Nat) (v : Word) :
    e.Mild (e.write64 memory offset v) := by
  unfold write64
  split
  · split <;> exact .of_acted rfl rfl rfl
  · split
    · have hpublished : e.Mild { e with tail := v } := .of_acted rfl rfl rfl
      exact hpublished.trans (mild_consume memory _)
    split
    · have hact : e.Mild (e.act (.context (v.field 61 2) v.toUInt16)) := .act e fun _ => nofun
      exact hact.trans (.of_acted rfl rfl rfl)
    split
    · have hact : e.Mild (e.act (.iotlb (v.field 60 2) (v >>> 32).toUInt16)) := .act e fun _ => nofun
      exact hact.trans (.of_acted rfl rfl rfl)
    · exact .of_acted rfl rfl rfl

theorem mild_write32 (e : Emulated) {offset : Nat} (h : offset ≠ Register.globalCommand) (v : UInt32) :
    e.Mild (e.write32 offset v) := by
  unfold write32
  rw [if_neg h]
  split <;> exact .of_acted rfl rfl rfl

/-- a command that is issued is answered -/
theorem acted_answered {b : UInt32} (hb : b ∈ Command.issued) (e : Emulated) :
    (e.issue b).acted.toList = e.acted.toList ++ (Command.answered e.status b).map .global := by
  rw [issue_eq hb]
  unfold Command.answered
  split
  · exact Array.toList_push
  · exact (List.append_nil _).symm

theorem violations_issue {b : UInt32} (hb : b ∈ Command.issued) (e : Emulated) :
    (e.issue b).violations = e.violations := by
  rw [issue_eq hb]
  split <;> rfl

end Emulated

theorem Device.mild_noticeRead (memory : Memory) (d : Device) (offset : Nat) :
    d.unit.Mild (d.noticeRead memory offset).unit := by
  unfold Device.noticeRead
  split
  · split
    · exact .refl _
    · split
      · have hwoken : d.unit.Mild { d.unit with stalled := false } := .of_acted rfl rfl rfl
        exact hwoken.trans (Emulated.mild_consume memory _)
      · exact .refl _
  · exact .refl _

/-! ## what is logged -/

section
variable {cell : Nat} {m : Machine σ} {rs : List Request}

/-- a device changes, and what its unit acts on is logged -/
theorem Act.changeDevice_logs {f : Memory → Device → Device} (hrs : (f m.memory (m.devices.get cell)).unit.acted.toList
      = (m.devices.get cell).unit.acted.toList ++ rs) (env : Env σ) :
    ∃ n, (Act.changeDevice cell f : Act σ ε Unit) env m = .ok () n ∧
      n.devices.get cell = f m.memory (m.devices.get cell) ∧ m.Logs (rs.map (.acted cell)) n :=
  ⟨_, changeDevice_apply hrs env, (Cells.get_modify ..).trans (if_pos rfl), Machine.logs_noteAll _ _⟩

/-- a write is logged, and then what the unit acts on -/
theorem Act.write_logs (hf : (m.devices.get cell).Free) (access : RegisterAccess) {f : Memory → Device → Device}
    (hrs : (f m.memory (m.devices.get cell)).unit.acted.toList = (m.devices.get cell).unit.acted.toList ++ rs)
    (env : Env σ) :
    ∃ n, (do
        Act.countAccess cell
        let label ← Act.view fun m => (m.devices.get cell).label
        Act.note (.accessed cell label access)
        Act.changeDevice cell f : Act σ ε Unit) env m = .ok () n ∧
      n.devices.get cell = f m.memory (m.devices.get cell) ∧
      m.Logs (.accessed cell (m.devices.get cell).label access :: rs.map (.acted cell)) n := by
  obtain ⟨k, hk⟩ : ∃ k, m.note (.accessed cell (m.devices.get cell).label access) = k := ⟨_, rfl⟩
  have hmk : m.Logs [.accessed cell (m.devices.get cell).label access] k := hk ▸ .note m _
  have hdev : k.devices = m.devices := hk ▸ rfl
  have hmem : k.memory = m.memory := hk ▸ rfl
  obtain ⟨n, hn, hd, hl⟩ := Act.changeDevice_logs (ε := ε) (m := k) (f := f) (by rw [hdev, hmem, hrs]) env
  rw [hdev, hmem] at hd
  refine ⟨n, ?_, hd, hmk.trans hl⟩
  simp only [Act.bind_apply, Act.countAccess_free hf.allowance, Act.view_apply, Act.note, Act.change_apply, hk, hn]

theorem RegisterFile.write32_logs (hf : (m.devices.get cell).Free) (offset : Nat) (v : UInt32)
    (hrs : ((m.devices.get cell).unit.write32 offset v).acted.toList
      = (m.devices.get cell).unit.acted.toList ++ rs) (env : Env σ) :
    ∃ n, ((device cell).write32 offset v : Act σ ε Unit) env m = .ok () n ∧
      n.devices.get cell = { m.devices.get cell with unit := (m.devices.get cell).unit.write32 offset v } ∧
      m.Logs (.accessed cell (m.devices.get cell).label ⟨false, true, offset, v.toUInt64⟩ :: rs.map (.acted cell))
        n :=
  Act.write_logs hf _ (f := fun _ d => { d with unit := d.unit.write32 offset v }) hrs env

theorem RegisterFile.write64_logs (hf : (m.devices.get cell).Free) (offset : Nat) (v : Word)
    (hrs : ((m.devices.get cell).unit.write64 m.memory offset v).acted.toList
      = (m.devices.get cell).unit.acted.toList ++ rs) (env : Env σ) :
    ∃ n, ((device cell).write64 offset v : Act σ ε Unit) env m = .ok () n ∧
      n.devices.get cell = { m.devices.get cell with unit := (m.devices.get cell).unit.write64 m.memory offset v } ∧
      m.Logs (.accessed cell (m.devices.get cell).label ⟨true, true, offset, v⟩ :: rs.map (.acted cell)) n :=
  Act.write_logs hf _ (f := fun memory d => { d with unit := d.unit.write64 memory offset v }) hrs env

end

/-! ## actions that ask for commands -/

/-- from `m` to `n` the commands `bs` were issued to the device `cell`, and none was a violation -/
structure Machine.Commanded (cell : Nat) (bs : List UInt32) (m n : Machine σ) : Prop where
  free : (n.devices.get cell).Free
  violations : (n.devices.get cell).unit.violations = (m.devices.get cell).unit.violations
  logs : ∃ es, m.Logs es n ∧
    Command.Issued cell (m.devices.get cell).unit.status es (n.devices.get cell).unit.status bs

namespace Machine.Commanded
variable {cell : Nat} {bs bs' : List UInt32} {m k n : Machine σ}

theorem trans (h : m.Commanded cell bs k) (h' : k.Commanded cell bs' n) : m.Commanded cell (bs ++ bs') n := by
  obtain ⟨es, hes, hi⟩ := h.logs
  obtain ⟨fs, hfs, hi'⟩ := h'.logs
  exact ⟨h'.free, h'.violations.trans h.violations, es ++ fs, hes.trans hfs, hi.append hi'⟩

/-- nothing was asked of the unit -/
theorem of_mild {es : List Event} (hf : (n.devices.get cell).Free)
    (hm : (m.devices.get cell).unit.Mild (n.devices.get cell).unit) (hl : m.Logs es n)
    (he : ∀ e ∈ es, ¬ e.IsGlobal cell) : m.Commanded cell [] n :=
  ⟨hf, hm.violations, es, hl, hm.status ▸ .others he _⟩

theorem of_device {es : List Event} (hf : (m.devices.get cell).Free) (hd : n.devices.get cell = m.devices.get cell)
    (hl : m.Logs es n) (he : ∀ e ∈ es, ¬ e.IsGlobal cell) : m.Commanded cell [] n := by
  refine of_mild (hd ▸ hf) ?_ hl he
  rw [hd]
  exact .refl _

theorem refl (hf : (m.devices.get cell).Free) : m.Commanded cell [] m := of_device hf rfl (.refl rfl) nofun

/-- a unit of which nothing was asked acts on no command -/
theorem not_mem {es : List Event} (h : m.Commanded cell [] n) (hl : m.Logs es n) (b : UInt32) :
    .acted cell (.global b) ∉ es := by
  obtain ⟨fs, hfs, hissued⟩ := h.logs
  obtain rfl := hl.inj hfs
  exact fun hb => absurd (hissued.mem hb) List.not_mem_nil

/-- one that was asked acts on what was off -/
theorem acted_of_off {es : List Event} (h : m.Commanded cell bs n) (hl : m.Logs es n) {b : UInt32} (hb : b ∈ bs)
    (hissued : b ∈ Command.issued) (hoff : (m.devices.get cell).unit.status &&& b = 0) : .acted cell (.global b) ∈ es := by
  obtain ⟨fs, hfs, h⟩ := h.logs
  exact hl.inj hfs ▸ h.acted_of_off hb hissued hoff

end Machine.Commanded

/-- however `x` ends, it issued the first of the commands `bs` to the device `cell`, and all of them if it ends with a
result -/
def Act.Issues (cell : Nat) (env : Env σ) (bs : List UInt32) (x : Act σ ε α) : Prop :=
  ∀ m, (m.devices.get cell).Free → ∃ bs', bs' <+: bs ∧ m.Commanded cell bs' (x.after env m) ∧
    ∀ a n, x env m = .ok a n → bs' = bs

namespace Act.Issues
variable {cell : Nat} {env : Env σ} {bs bs' : List UInt32} {m n : Machine σ} {x : Act σ ε α}

theorem commanded (h : x.Issues cell env bs) (hf : (m.devices.get cell).Free) {a : α} (hx : x env m = .ok a n) :
    m.Commanded cell bs n := by
  obtain ⟨bs', -, hc, hall⟩ := h m hf
  rw [after_of_ok hx] at hc
  exact hall a n hx ▸ hc

/-- however it ends, if it asks for nothing -/
theorem commanded_nil (h : x.Issues cell env []) (hf : (m.devices.get cell).Free) :
    m.Commanded cell [] (x.after env m) := by
  obtain ⟨bs', hpre, hc, -⟩ := h m hf
  exact List.prefix_nil.mp hpre ▸ hc

theorem bind {f : α → Act σ ε β} (hx : x.Issues cell env bs) (hf : ∀ a, (f a).Issues cell env bs') :
    (x >>= f).Issues cell env (bs ++ bs') := by
  intro m hfree
  obtain ⟨cs, hpre, hc, hall⟩ := hx m hfree
  rw [after_bind, bind_apply]
  cases hr : x env m with
  | ok a k =>
    rw [after_of_ok hr] at hc
    obtain rfl := hall a k hr
    obtain ⟨ds, hpre', hd, hall'⟩ := hf a k hc.free
    exact ⟨cs ++ ds, (List.prefix_append_right_inj cs).mpr hpre', hc.trans hd, fun b n hb => by rw [hall' b n hb]⟩
  | error e k =>
    rw [after_of_error hr] at hc
    exact ⟨cs, hpre.trans (List.prefix_append bs bs'), hc, nofun⟩

/-- nothing is asked for -/
theorem of_commanded (h : ∀ m : Machine σ, (m.devices.get cell).Free → m.Commanded cell [] (x.after env m)) :
    x.Issues cell env [] := fun m hf => ⟨[], List.prefix_rfl, h m hf, fun _ _ _ => rfl⟩

/-- what is done before or after may ask for something -/
theorem before {f : α → Act σ ε β} (hx : x.Issues cell env []) (hf : ∀ a, (f a).Issues cell env bs) :
    (x >>= f).Issues cell env bs := hx.bind hf

theorem after {f : α → Act σ ε β} (hx : x.Issues cell env bs) (hf : ∀ a, (f a).Issues cell env []) :
    (x >>= f).Issues cell env bs := List.append_nil bs ▸ hx.bind hf

theorem pure (a : α) : (Pure.pure a : Act σ ε α).Issues cell env [] := of_commanded fun _ hf => .refl hf

/-- one after the other -/
theorem forM {l : List β} {f : β → Act σ ε PUnit} {g : β → List UInt32} (h : ∀ b ∈ l, (f b).Issues cell env (g b)) :
    (l.forM f).Issues cell env (l.flatMap g) := by
  induction l with
  | nil => exact pure _
  | cons b l ih =>
    rw [List.forall_mem_cons] at h
    exact h.1.bind fun _ => ih h.2

theorem forM_nil {l : List β} {f : β → Act σ ε PUnit} (h : ∀ b ∈ l, (f b).Issues cell env []) :
    (l.forM f).Issues cell env [] := by
  have hall := forM h
  rwa [List.flatMap_eq_nil_iff.mpr fun _ _ => rfl] at hall

theorem view (f : Machine σ → α) : (Act.view f : Act σ ε α).Issues cell env [] := of_commanded fun _ hf => .refl hf

/-- an action that ends at once -/
theorem stop {s : Stop ε} (h : ∀ m, x env m = .error s m) : x.Issues cell env bs := fun m hf =>
  ⟨[], List.nil_prefix, (after_of_error (h m)).symm ▸ .refl hf, fun a n hx => by cases (h m).symm.trans hx⟩

theorem note {e : Event} (he : ¬ e.IsGlobal cell) : (Act.note e : Act σ ε Unit).Issues cell env [] :=
  of_commanded fun m hf => .of_device hf rfl (.note m e) fun _ h => List.mem_singleton.mp h ▸ he

theorem store (a : PhysAddr) (w : Word) : (Act.store a w : Act σ ε Unit).Issues cell env [] :=
  of_commanded fun _ hf => .of_device hf rfl (.push rfl) fun _ h => List.mem_singleton.mp h ▸ id

theorem changeRings (f : Cells RingState → Cells RingState) :
    (Act.change fun m => { m with rings := f m.rings } : Act σ ε Unit).Issues cell env [] :=
  of_commanded fun _ hf => .of_device hf rfl (.refl rfl) nofun

theorem clean (c : Cleaner) (a : PhysAddr) (len : Nat) : (Act.clean c a len : Act σ ε Unit).Issues cell env [] := by
  refine of_commanded fun m hf => ?_
  rw [after_of_ok (Act.clean_apply c a len env m)]
  exact .of_device hf rfl (m.logs_noteAll _) (c.forall_events a len m.memory (fun _ => id) fun _ _ => id)

theorem pollFor {ask : Act σ ε α} (h : ask.Issues cell env []) (done : α → Bool) (tries : Nat) :
    (Act.pollFor ask done tries).Issues cell env [] := by
  induction tries with
  | zero => exact stop fun _ => rfl
  | succ tries ih =>
    refine h.before fun a => ?_
    split
    · exact pure a
    · exact ih

theorem poll {ask : Act σ ε α} (h : ask.Issues cell env []) (done : α → Bool) :
    (Act.poll ask done).Issues cell env [] := pollFor h done env.patience

/-! ## registers -/

theorem changeOther {i : Nat} (hi : i ≠ cell) (f : Memory → Device → Device) :
    (Act.changeDevice i f : Act σ ε Unit).Issues cell env [] := by
  refine of_commanded fun m hf => ?_
  obtain ⟨d, hd⟩ : ∃ d, f m.memory (m.devices.get i) = d := ⟨_, rfl⟩
  have hrun : (Act.changeDevice i f : Act σ ε Unit) env m = .ok () (Machine.noteAll
      { m with devices := m.devices.modify i fun _ => d } (((m.devices.get i).newActs d).map (.acted i))) := by
    unfold Act.changeDevice
    rw [change_apply]
    simp only [hd, Machine.foldl_note]
  rw [after_of_ok hrun]
  refine .of_device hf ((Cells.get_modify ..).trans (if_neg hi)) (Machine.logs_noteAll _ _) fun e he => ?_
  obtain ⟨r, -, rfl⟩ := List.mem_map.mp he
  cases r with
  | global b => exact hi
  | _ => exact id

variable {i : Nat}

theorem changeDevice {f : Memory → Device → Device} (hfree : ∀ memory (d : Device), d.Free → (f memory d).Free)
    (hmild : i = cell → ∀ memory (d : Device), d.unit.Mild (f memory d).unit) :
    (Act.changeDevice i f : Act σ ε Unit).Issues cell env [] := by
  by_cases hi : i = cell
  · subst hi
    refine of_commanded fun m hf => ?_
    obtain ⟨rs, hrs, hr⟩ := (hmild rfl m.memory (m.devices.get i)).acted
    obtain ⟨n, hn, hd, hl⟩ := changeDevice_logs (ε := ε) hrs env
    rw [after_of_ok hn]
    refine .of_mild (hd ▸ hfree _ _ hf) (hd ▸ hmild rfl _ _) hl fun e he => ?_
    obtain ⟨r, hmem, rfl⟩ := List.mem_map.mp he
    cases r with
    | global b => exact absurd rfl (hr _ hmem b)
    | _ => exact id
  · exact changeOther hi f

theorem countAccess (i : Nat) : (Act.countAccess i : Act σ ε Unit).Issues cell env [] := by
  by_cases hi : i = cell
  · subst hi
    exact of_commanded fun _ hf => (after_of_ok (countAccess_free hf.allowance)).symm ▸ .refl hf
  · refine (view _).before fun d => ?_
    match d.allowance with
    | none => exact pure _
    | some 0 => exact stop fun _ => rfl
    | some (n + 1) =>
      exact of_commanded fun m hf => .of_device hf ((Cells.get_modify ..).trans (if_neg hi)) (.refl rfl) nofun

theorem readDevice (i offset : Nat) (wide : Bool) :
    (Act.readDevice i offset wide : Act σ ε Word).Issues cell env [] := by
  have hnoticed : (Act.changeDevice i fun memory d => d.noticeRead memory offset : Act σ ε Unit).Issues cell env
      [] := changeDevice (fun memory _ hf => hf.noticeRead memory offset) fun _ memory d =>
        d.mild_noticeRead memory offset
  have hdropped : (Act.changeDevice i fun _ d => d.dropAnswer offset : Act σ ε Unit).Issues cell env [] :=
    changeDevice (fun _ _ hf => (hf.dropAnswer offset).free) fun _ _ d => .refl d.unit
  exact (countAccess i).before fun _ => hnoticed.before fun _ => (view _).before fun _ => hdropped.before fun _ =>
    (note (Event.not_isGlobal_read _ _ _ _ _ _)).before fun _ => pure _

theorem write {offset : Nat} {wide : Bool} {v : Word} {f : Memory → Device → Device}
    (ho : i ≠ cell ∨ wide = true ∨ offset ≠ Register.globalCommand)
    (hfree : ∀ memory (d : Device), d.Free → (f memory d).Free)
    (hmild : i = cell → ∀ memory (d : Device), d.unit.Mild (f memory d).unit) : (do
      Act.countAccess i
      let label ← Act.view fun m => (m.devices.get i).label
      Act.note (.accessed i label ⟨wide, true, offset, v⟩)
      Act.changeDevice i f : Act σ ε Unit).Issues cell env [] := by
  have hother : ∀ label, ¬ (Event.accessed i label ⟨wide, true, offset, v⟩).IsGlobal cell := fun label h =>
    ho.elim (fun hi => hi h.1) (·.elim (fun hw => Bool.false_ne_true (h.2.1.symm.trans hw)) fun hne => hne h.2.2.2)
  exact (countAccess i).before fun _ => (view _).before fun label => (note (hother label)).before fun _ =>
    changeDevice hfree hmild

variable {u : Remapper} (hr : u.registers = .device i)
include hr

theorem read32 (offset : Nat) : (u.registers.read32 offset : Act σ ε UInt32).Issues cell env [] := by
  rw [hr]
  exact (readDevice i offset false).before fun _ => pure _

theorem read64 (offset : Nat) : (u.registers.read64 offset : Act σ ε Word).Issues cell env [] := by
  rw [hr]
  exact readDevice i offset true

theorem write32 {offset : Nat} (ho : i ≠ cell ∨ offset ≠ Register.globalCommand) (v : UInt32) :
    (u.registers.write32 offset v : Act σ ε Unit).Issues cell env [] := by
  rw [hr]
  exact write (ho.imp_right .inr) (fun _ _ hf => ⟨hf.allowance, hf.unscripted⟩) fun hi _ d =>
    d.unit.mild_write32 (ho.resolve_left (not_not_intro hi)) v

theorem write64 (offset : Nat) (v : Word) : (u.registers.write64 offset v : Act σ ε Unit).Issues cell env [] := by
  rw [hr]
  exact write (.inr (.inl rfl)) (fun _ _ hf => ⟨hf.allowance, hf.unscripted⟩) fun _ memory d =>
    Emulated.mild_write64 memory d.unit offset v

/-! ## what asks for nothing -/

theorem commandRegister (offset : Nat) (v : Word) :
    (u.commandRegister offset v : Act σ ε Unit).Issues cell env [] :=
  (write64 hr offset _).before fun _ => (poll (read64 hr offset) _).before fun _ => pure _

theorem routeFaults (event : Option FaultEvent) : (u.routeFaults event : Act σ ε Unit).Issues cell env [] := by
  have hwrite : ∀ {offset : Nat} (_ : offset ≠ Register.globalCommand) (v : UInt32),
      (u.registers.write32 offset v : Act σ ε Unit).Issues cell env [] := fun ho v => write32 hr (.inr ho) v
  refine (hwrite (by decide) _).before fun _ => ?_
  cases event with
  | none => exact pure _
  | some e =>
    exact (hwrite (by decide) _).before fun _ => (hwrite (by decide) _).before fun _ => hwrite (by decide) _

omit hr in
theorem moveHead (q : InvalidationQueue) (head : Nat) :
    (q.moveHead head : Act σ RemapError Unit).Issues cell env [] := by
  refine (view _).before fun r => ?_
  cases r.moveHead head with
  | error e => exact stop fun _ => rfl
  | ok r' => exact (pure r').before fun _ => changeRings fun rings => rings.modify q.cell fun _ => _

omit hr in
theorem push (q : InvalidationQueue) (d : Descriptor) : (q.push d : Act σ RemapError Unit).Issues cell env [] := by
  refine (view _).before fun r => ?_
  split
  · exact stop fun _ => rfl
  · exact (store _ _).before fun _ => (store _ _).before fun _ =>
      changeRings fun rings => rings.modify q.cell (·.advance)

theorem awaitRoom (q : InvalidationQueue) (tries : Nat) :
    (u.awaitRoom q tries : Act σ RemapError Unit).Issues cell env [] := by
  induction tries with
  | zero => exact stop fun _ => rfl
  | succ tries ih =>
    refine (view _).before fun r => ?_
    split
    · exact (read64 hr _).before fun _ => (moveHead q _).before fun _ => ih
    · exact pure _

theorem append (q : InvalidationQueue) (d : Descriptor) : (u.append q d : Act σ RemapError Unit).Issues cell env [] :=
  have hroom : (Act.withPatience (u.awaitRoom q) : Act σ RemapError Unit).Issues cell env [] :=
    awaitRoom hr q env.patience
  hroom.before fun _ => (view _).before fun _ => (push q d).before fun _ => (clean _ _ _).before fun _ =>
    (view _).before fun _ => write64 hr _ _

theorem submit (q : InvalidationQueue) (ds : List Descriptor) :
    (u.submit q ds : Act σ RemapError Unit).Issues cell env [] := by
  have hall : (ds.forM (u.append q) : Act σ RemapError Unit).Issues cell env [] := forM_nil fun d _ => append hr q d
  have hread : (u.readPointers : Act σ RemapError (Nat × Nat)).Issues cell env [] :=
    (read64 hr _).before fun _ => (read64 hr _).before fun _ => pure _
  exact hall.before fun _ => (view _).before fun _ => (poll hread _).before fun _ => pure _

theorem invalidate (s : Scope) (domain : UInt16) : (u.invalidate s domain).Issues cell env [] := by
  unfold Remapper.invalidate
  split
  · exact submit hr _ _
  · exact (commandRegister hr _ _).before fun _ => commandRegister hr _ _

theorem invalidateInterrupts (remapping : Bool) : (u.invalidateInterrupts remapping).Issues cell env [] := by
  unfold Remapper.invalidateInterrupts
  split
  · split
    · exact submit hr _ _
    · exact stop fun _ => rfl
  · exact stop fun _ => rfl

theorem takeFault (j : Nat) : (u.takeFault j : Act σ ε (Option FaultRecord)).Issues cell env [] := by
  refine (read64 hr _).before fun lo => (read64 hr _).before fun hi => ?_
  cases FaultRecord.decode? lo hi with
  | none => exact pure _
  | some r => exact (write64 hr _ _).before fun _ => pure _

theorem drainSlots (is : List Nat) : (u.drainSlots is : Act σ ε Nat).Issues cell env [] := by
  induction is with
  | nil => exact pure _
  | cons j is ih =>
    refine (takeFault hr j).before fun r => ?_
    cases r with
    | none => exact ih
    | some r => exact (note id).before fun _ => ih.before fun _ => pure _

theorem drainFaults (tries : Nat) : (u.drainFaults tries : Act σ ε Nat).Issues cell env [] := by
  induction tries with
  | zero => exact stop fun _ => rfl
  | succ tries ih =>
    have hrest : ∀ (drained : Nat) (v : UInt32), (do
        u.registers.write32 Register.faultStatus v
        Pure.pure (drained + (← u.drainFaults tries)) : Act σ ε Nat).Issues cell env [] := fun _ v =>
      (write32 hr (.inr (by decide)) v).before fun _ => ih.before fun _ => pure _
    refine (read32 hr _).before fun status => ?_
    split
    · exact pure _
    split
    · exact (drainSlots hr _).before fun drained => hrest drained _
    · exact hrest 0 _

theorem handleFaults : (u.handleFaults : Act σ ε Nat).Issues cell env [] := drainFaults hr env.patience

/-- no command of another unit either -/
theorem command (hi : i ≠ cell) (b : UInt32) : (u.command b : Act σ ε Unit).Issues cell env [] := by
  unfold Remapper.command
  split
  · exact stop fun _ => rfl
  · exact (read32 hr _).before fun _ => (write32 hr (.inl hi) _).before fun _ =>
      (poll (read32 hr _) _).before fun _ => pure _

end Act.Issues

/-! ## commands, bring-up, and runs of both -/

namespace Remapper
variable {u : Remapper} {cell : Nat} {env : Env σ} {b : UInt32} {m : Machine σ}

/-- a command with no bit or with several is refused before anything is done -/
theorem command_refused (u : Remapper) (hb : (Command.bits b).length ≠ 1) (env : Env σ) (m : Machine σ) :
    (u.command b : Act σ ε Unit) env m = .error .refused m := by
  unfold command
  simp only [Act.bind_apply, if_pos hb, Act.refuse_apply]

/-- the commands of bring-up: the tables, the queue if there is one, and remapping -/
def bringUp (u : Remapper) (interrupts : Bool) : List UInt32 :=
  [Command.setRootTable] ++ (if interrupts then [Command.setInterruptTable, Command.interruptRemapping] else [])
    ++ ((if u.isQueued then [Command.queuedInvalidation] else []) ++ [Command.dmaRemapping])

section
variable (hr : u.registers = .device cell)
include hr

/-- the write that issues a command -/
theorem write_issues (hf : (m.devices.get cell).Free) (hb : b ∈ Command.issued) (env : Env σ) :
    ∃ n, (u.registers.write32 Register.globalCommand (Command.issuing (m.devices.get cell).unit.status b) :
        Act σ ε Unit) env m = .ok () n ∧ m.Commanded cell [b] n := by
  obtain ⟨s, hs⟩ : ∃ s, (m.devices.get cell).unit.status = s := ⟨_, rfl⟩
  have hissue : (m.devices.get cell).unit.write32 Register.globalCommand (Command.issuing s b)
      = (m.devices.get cell).unit.issue b := hs ▸ rfl
  have hacted : ((m.devices.get cell).unit.write32 Register.globalCommand (Command.issuing s b)).acted.toList
      = (m.devices.get cell).unit.acted.toList ++ (Command.answered s b).map .global := by
    rw [hissue, Emulated.acted_answered hb, hs]
  obtain ⟨n, hn, hd, hl⟩ := RegisterFile.write32_logs (ε := ε) hf _ _ hacted env
  rw [List.map_map] at hl
  rw [hissue] at hd
  refine ⟨n, by rw [hr, hs, hn], ?_, ?_, _, hl, ?_⟩
  · rw [hd]
    exact ⟨hf.allowance, hf.unscripted⟩
  · rw [hd]
    exact Emulated.violations_issue hb _
  · rw [hd, Emulated.status_issue hb, hs]
    exact Command.Issued.single hb s

/-- a command is issued once, with what the unit says of the commands before -/
theorem command_issues (hb : b ∈ Command.issued) : (u.command b : Act σ ε Unit).Issues cell env [b] := by
  intro m hf
  obtain ⟨k, hk, -, -, hlk⟩ := RegisterFile.read32_free (ε := ε) env u hf Register.globalStatus (by decide)
  have hmk := (Act.Issues.read32 (ε := ε) hr Register.globalStatus).commanded hf (hr ▸ hk)
  obtain ⟨j, hj, hkj⟩ := write_issues (ε := ε) hr hlk.free hb env
  have hpoll : (do
      let _ ← Act.poll (u.registers.read32 Register.globalStatus) fun s => s &&& b != 0 : Act σ ε Unit).Issues cell
        env [] := (Act.Issues.poll (.read32 hr _) _).before fun _ => .pure _
  have hjn := hpoll.commanded_nil hkj.free
  have hstatus : (m.devices.get cell).unit.read32 Register.globalStatus = (k.devices.get cell).unit.status := by
    rw [hlk.unit]
    rfl
  refine ⟨[b], List.prefix_rfl, ?_, fun _ _ _ => rfl⟩
  have hrun : (u.command b : Act σ ε Unit).after env m = (do
      let _ ← Act.poll (u.registers.read32 Register.globalStatus) fun s => s &&& b != 0 :
        Act σ ε Unit).after env j := by
    rw [hstatus] at hk
    rw [hr] at hj ⊢
    have hwrite : ((RegisterFile.device cell).write32 Register.globalCommand
        (((k.devices.get cell).unit.status &&& ~~~Command.oneShot) ||| b) : Act σ ε Unit) env k = .ok () j := hj
    unfold command Act.after
    rw [hr]
    simp only [Command.bits_issued hb, List.length_singleton, ne_eq, not_true_eq_false, if_false, Act.bind_apply,
      Act.pure_apply, hk, hwrite]
  rw [hrun]
  exact hmk.trans (hkj.trans hjn)

end

/-- bring-up asks for what its commands do -/
theorem start_issues_flatMap {i : Nat} {f : UInt32 → List UInt32} (hr : u.registers = .device i)
    (hf : ∀ b ∈ Command.issued, (u.command b : Act σ RemapError Unit).Issues cell env (f b)) (root : PhysAddr)
    (interrupts : Option Word) (event : Option FaultEvent) :
    (u.start root interrupts event).Issues cell env ((u.bringUp interrupts.isSome).flatMap f) := by
  have haim : (u.aim root interrupts event : Act σ RemapError Unit).Issues cell env (([Command.setRootTable] ++
      if interrupts.isSome then [Command.setInterruptTable, Command.interruptRemapping] else []).flatMap f) := by
    rw [List.flatMap_append, List.flatMap_singleton]
    refine (Act.Issues.routeFaults hr event).before fun _ => (Act.Issues.write64 hr _ _).before fun _ =>
      (hf _ (by decide)).bind fun _ => ?_
    cases interrupts with
    | none => exact .pure _
    | some table =>
      rw [Option.isSome_some, if_pos rfl, List.flatMap_cons, List.flatMap_singleton]
      exact (Act.Issues.write64 hr _ _).before fun _ => (hf _ (by decide)).bind fun _ => hf _ (by decide)
  have hopen : (u.openQueue : Act σ RemapError Unit).Issues cell env
      ((if u.isQueued then [Command.queuedInvalidation] else []).flatMap f) := by
    unfold openQueue isQueued
    cases u.queue with
    | none => exact .pure _
    | some q =>
      rw [Option.isSome_some, if_pos rfl, List.flatMap_singleton]
      exact (Act.Issues.view _).before fun _ => (Act.Issues.write64 hr _ _).before fun _ =>
        (Act.Issues.write64 hr _ _).before fun _ => hf _ (by decide)
  have henable : (u.enable interrupts.isSome : Act σ RemapError Unit).Issues cell env ([Command.dmaRemapping].flatMap f) := by
    rw [List.flatMap_singleton]
    exact (Act.Issues.invalidate hr _ _).before fun _ => (hf _ (by decide)).after fun _ =>
      (Act.Issues.read32 hr _).before fun _ => .note id
  rw [start_eq]
  simp only [bringUp, List.flatMap_append] at haim ⊢
  exact haim.bind fun _ => hopen.bind fun _ => henable

theorem start_issues (hr : u.registers = .device cell) (root : PhysAddr) (interrupts : Option Word)
    (event : Option FaultEvent) : (u.start root interrupts event).Issues cell env (u.bringUp interrupts.isSome) := by
  have h : (u.start root interrupts event).Issues cell env ((u.bringUp interrupts.isSome).flatMap fun b => [b]) :=
    start_issues_flatMap hr (fun _ => command_issues hr) root interrupts event
  rwa [List.flatMap_singleton'] at h

/-- the bring-up of another unit asks for nothing -/
theorem start_issues_nil {i : Nat} (hr : u.registers = .device i) (hi : i ≠ cell) (root : PhysAddr)
    (interrupts : Option Word) (event : Option FaultEvent) : (u.start root interrupts event).Issues cell env [] := by
  have h : (u.start root interrupts event).Issues cell env ((u.bringUp interrupts.isSome).flatMap fun _ => []) :=
    start_issues_flatMap hr (fun b _ => .command hr hi b) root interrupts event
  rwa [List.flatMap_eq_nil_iff.mpr fun _ _ => rfl] at h

end Remapper

end NestedPaging
