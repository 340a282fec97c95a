import NestedPaging.Proofs.Unit.GlobalCommands
import NestedPaging.Proofs.Unit.Invariants

/-!
# In which order a unit is brought up

Translation, interrupt remapping and the queue are each switched on by a command. What the registers hold then, and
what was done before, can be read off the trace: `LastWrote` is the last write to a register and what the unit acted
on since. `Remapper.InOrder` says what must have happened before one of the three is switched on.

* `Act.Obeys L`              however an action ends, the unit acts on a command only after what `L` asks for;
* `Act.Obeys.command`, `Act.Obeys.write64`   one step, with what is known of the registers before and after;
* `Startable.start_allowed`  bring-up keeps to the order of `Remapper.InOrder`, however it ends.
-/

namespace NestedPaging

variable {σ ε α β : Type}

/-! ## registers in a trace -/

/-- is the event a write to the register at `offset` of the device `cell`? -/
def Event.Writes (cell offset : Nat) : Event → Prop
  | .accessed i _ a => i = cell ∧ a.isWrite = true ∧ a.offset = offset
  | _ => False

/-- what the unit behind the device `cell` acted on -/
def requestsOf (cell : Nat) (es : List Event) : List Request :=
  (es.filterMap Event.request?).filterMap fun x => if x.1 = cell then some x.2 else none

/-- The last write to the register at `offset` of the device `cell` wrote `v`, and the unit acted on `rs` since. -/
def LastWrote (cell offset : Nat) (v : Word) (rs : List Request) (es : List Event) : Prop :=
  ∃ before label since, es = before ++ .accessed cell label ⟨true, true, offset, v⟩ :: since ∧
    (∀ e ∈ since, ¬ e.Writes cell offset) ∧ requestsOf cell since = rs

section
variable {cell offset : Nat} {v : Word} {rs : List Request} {es fs : List Event}

theorem requestsOf_append (cell : Nat) (es fs : List Event) :
    requestsOf cell (es ++ fs) = requestsOf cell es ++ requestsOf cell fs := by
  unfold requestsOf
  rw [List.filterMap_append, List.filterMap_append]

theorem mem_requestsOf {r : Request} : r ∈ requestsOf cell es ↔ .acted cell r ∈ es := by
  unfold requestsOf
  rw [List.mem_filterMap]
  constructor
  · rintro ⟨⟨i, r'⟩, hmem, hr⟩
    obtain ⟨e, he, hrequest⟩ := List.mem_filterMap.mp hmem
    cases e with
    | acted i' r'' =>
      obtain ⟨rfl, rfl⟩ := Prod.mk.inj (Option.some.inj hrequest)
      split at hr
      · rename_i hi
        obtain rfl : i' = cell := hi
        rwa [← Option.some.inj hr]
      · cases hr
    | _ => cases hrequest
  · exact fun h => ⟨(cell, r), List.mem_filterMap.mpr ⟨_, h, rfl⟩, if_pos rfl⟩

/-- what a driver logs is what its unit acted on -/
theorem requestsOf_eq (h : es.filterMap Event.request? = rs.map fun r => (cell, r)) : requestsOf cell es = rs := by
  unfold requestsOf
  rw [h, List.filterMap_map]
  show rs.filterMap (fun r => if cell = cell then some r else none) = rs
  simp

theorem LastWrote.append (h : LastWrote cell offset v rs es) (hfs : ∀ e ∈ fs, ¬ e.Writes cell offset) :
    LastWrote cell offset v (rs ++ requestsOf cell fs) (es ++ fs) := by
  obtain ⟨before, label, since, rfl, hsince, rfl⟩ := h
  refine ⟨before, label, since ++ fs, by rw [List.append_assoc, List.cons_append], fun e he => ?_,
    requestsOf_append ..⟩
  exact (List.mem_append.mp he).elim (hsince e) (hfs e)

/-- what happened before the write does not matter -/
theorem LastWrote.behind (h : LastWrote cell offset v rs es) (fs : List Event) :
    LastWrote cell offset v rs (fs ++ es) := by
  obtain ⟨before, label, since, rfl, h⟩ := h
  exact ⟨fs ++ before, label, since, (List.append_assoc ..).symm, h⟩

end

/-- a register that was written, and commands that the unit acted on since -/
structure Setting where
  offset : Nat
  value : Word
  done : List UInt32

/-- all of these registers hold what was written, and all of their commands were done -/
def Setting.AllIn (cell : Nat) (ss : List Setting) (es : List Event) : Prop :=
  ∀ s ∈ ss, ∃ rs, LastWrote cell s.offset s.value rs es ∧ ∀ b ∈ s.done, .global b ∈ rs

/-- one more command was done -/
def Setting.did (b : UInt32) (s : Setting) : Setting := { s with done := b :: s.done }

/-- `P` stays true of what happened as long as the registers at `offsets` are not written -/
def Lasts (cell : Nat) (offsets : List Nat) (P : List Event → Prop) : Prop :=
  ∀ es fs, P es → (∀ o ∈ offsets, ∀ e ∈ fs, ¬ e.Writes cell o) → P (es ++ fs)

namespace Setting.AllIn
variable {cell : Nat} {ss ss' : List Setting} {es fs : List Event}

theorem lasts (cell : Nat) (ss : List Setting) : Lasts cell (ss.map Setting.offset) (AllIn cell ss) := by
  intro es fs h hfs s hs
  obtain ⟨rs, hrs, hdone⟩ := h s hs
  exact ⟨_, hrs.append (hfs _ (List.mem_map_of_mem hs)), fun b hb => List.mem_append_left _ (hdone b hb)⟩

theorem did (h : AllIn cell ss es) (hfs : ∀ o ∈ ss.map Setting.offset, ∀ e ∈ fs, ¬ e.Writes cell o) {b : UInt32}
    (hb : .acted cell (.global b) ∈ fs) : AllIn cell (ss.map (Setting.did b)) (es ++ fs) := by
  intro s' hs'
  obtain ⟨s, hs, rfl⟩ := List.mem_map.mp hs'
  obtain ⟨rs, hrs, hdone⟩ := h s hs
  refine ⟨_, hrs.append (hfs _ (List.mem_map_of_mem hs)), fun b' hb' => ?_⟩
  rcases List.mem_cons.mp hb' with rfl | hb'
  · exact List.mem_append_right _ (mem_requestsOf.mpr hb)
  · exact List.mem_append_left _ (hdone b' hb')

end Setting.AllIn

/-! ## what spares a register -/

/-- from `m` to `n` the register at `offset` of the device `cell` was not written -/
def Machine.Spares (cell offset : Nat) (m n : Machine σ) : Prop :=
  ∃ es, m.Logs es n ∧ ∀ e ∈ es, ¬ e.Writes cell offset

namespace Machine.Spares
variable {cell offset : Nat} {env : Env σ} {m k n : Machine σ} {x : Act σ ε α}

theorem trans (h : m.Spares cell offset k) (h' : k.Spares cell offset n) : m.Spares cell offset n := by
  obtain ⟨es, hes, he⟩ := h
  obtain ⟨fs, hfs, hf⟩ := h'
  exact ⟨es ++ fs, hes.trans hfs, fun e h => (List.mem_append.mp h).elim (he e) (hf e)⟩

theorem of_trace (h : n.trace = m.trace) : m.Spares cell offset n := ⟨[], .refl h, nofun⟩

theorem push {e : Event} (h : n.trace = m.trace.push e) (he : ¬ e.Writes cell offset) : m.Spares cell offset n :=
  ⟨[e], .push h, fun _ h => List.mem_singleton.mp h ▸ he⟩

/-- the same events, known in another way -/
theorem not_writes {es : List Event} (h : m.Spares cell offset n) (hl : m.Logs es n) : ∀ e ∈ es, ¬ e.Writes cell offset := by
  obtain ⟨fs, hfs, hf⟩ := h
  exact hl.inj hfs ▸ hf

theorem bind {f : α → Act σ ε β} (hx : x.Keeps (Spares cell offset) env)
    (hf : ∀ a, (f a).Keeps (Spares cell offset) env) : (x >>= f).Keeps (Spares cell offset) env :=
  Act.Keeps.bind (R := Spares cell offset) (fun _ _ _ => trans) hx hf

theorem pure (a : α) : (Pure.pure a : Act σ ε α).Keeps (Spares cell offset) env := fun _ => .of_trace rfl

theorem view (f : Machine σ → α) : (Act.view f : Act σ ε α).Keeps (Spares cell offset) env := fun _ => .of_trace rfl

theorem poll {ask : Act σ ε α} (h : ask.Keeps (Spares cell offset) env) (done : α → Bool) :
    (Act.poll ask done).Keeps (Spares cell offset) env :=
  Act.Keeps.poll (R := Spares cell offset) (fun _ => .of_trace rfl) (fun _ _ _ => trans) h done

theorem changeDevice (i : Nat) (f : Memory → Device → Device) :
    (Act.changeDevice i f : Act σ ε Unit).Keeps (Spares cell offset) env := by
  intro m
  obtain ⟨d, hd⟩ : ∃ d, f m.memory (m.devices.get i) = d := ⟨_, rfl⟩
  refine ⟨((m.devices.get i).newActs d).map (.acted i), ?_, fun e he => ?_⟩
  · unfold Act.after Act.changeDevice
    rw [Act.change_apply]
    simp only [hd, Machine.foldl_note]
    exact Machine.logs_noteAll _ _
  · obtain ⟨r, -, rfl⟩ := List.mem_map.mp he
    exact id

theorem countAccess (i : Nat) : (Act.countAccess i : Act σ ε Unit).Keeps (Spares cell offset) env := by
  refine bind (view _) fun d => ?_
  match d.allowance with
  | none => exact pure _
  | some 0 => exact fun _ => .of_trace rfl
  | some (n + 1) => exact fun _ => .of_trace rfl

theorem readDevice (i o : Nat) (wide : Bool) :
    (Act.readDevice i o wide : Act σ ε Word).Keeps (Spares cell offset) env :=
  bind (countAccess i) fun _ => bind (changeDevice i _) fun _ => bind (view _) fun _ => bind (changeDevice i _) fun _ =>
    bind (fun _ => .push rfl fun h => Bool.false_ne_true h.2.1) fun _ => pure _

/-! ## drivers -/

variable {u : Remapper} {o : Nat}

theorem read32 (r : RegisterFile) (o : Nat) : (r.read32 o : Act σ ε UInt32).Keeps (Spares cell offset) env := by
  cases r with
  | mapped base => exact bind (view _) fun _ => pure _
  | device i => exact bind (readDevice i o false) fun _ => pure _

theorem read64 (r : RegisterFile) (o : Nat) : (r.read64 o : Act σ ε Word).Keeps (Spares cell offset) env := by
  cases r with
  | mapped base => exact view _
  | device i => exact readDevice i o true

theorem write32 (r : RegisterFile) (ho : o ≠ offset) (v : UInt32) :
    (r.write32 o v : Act σ ε Unit).Keeps (Spares cell offset) env := by
  cases r with
  | mapped base => exact bind (view _) fun _ _ => .push rfl id
  | device i =>
    exact bind (countAccess i) fun _ => bind (view _) fun _ => bind (fun _ => .push rfl fun h => ho h.2.2) fun _ =>
      changeDevice i _

theorem write64 (r : RegisterFile) (ho : o ≠ offset) (v : Word) :
    (r.write64 o v : Act σ ε Unit).Keeps (Spares cell offset) env := by
  cases r with
  | mapped base => exact fun _ => .push rfl id
  | device i =>
    exact bind (countAccess i) fun _ => bind (view _) fun _ => bind (fun _ => .push rfl fun h => ho h.2.2) fun _ =>
      changeDevice i _

theorem command (u : Remapper) (ho : Register.globalCommand ≠ offset) (b : UInt32) :
    (u.command b : Act σ ε Unit).Keeps (Spares cell offset) env := by
  unfold Remapper.command
  split
  · exact fun _ => .of_trace rfl
  · exact bind (read32 _ _) fun _ => bind (write32 _ ho _) fun _ => bind (poll (read32 _ _) _) fun _ => pure _

theorem commandRegister (u : Remapper) (ho : o ≠ offset) (v : Word) :
    (u.commandRegister o v : Act σ ε Unit).Keeps (Spares cell offset) env :=
  bind (write64 _ ho _) fun _ => bind (poll (read64 _ _) _) fun _ => pure _

theorem awaitRoom (u : Remapper) (q : InvalidationQueue) (tries : Nat) :
    (u.awaitRoom q tries).Keeps (Spares (σ := σ) cell offset) env := by
  have hmove : ∀ head, (q.moveHead head : Act σ RemapError Unit).Keeps (Spares cell offset) env := by
    refine fun head => bind (view _) fun r => ?_
    cases r.moveHead head with
    | error e => exact fun _ => .of_trace rfl
    | ok r' => exact bind (pure r') fun _ _ => .of_trace rfl
  induction tries with
  | zero => exact fun _ => .of_trace rfl
  | succ tries ih =>
    refine bind (view _) fun r => ?_
    split
    · exact bind (read64 _ _) fun _ => bind (hmove _) fun _ => ih
    · exact pure _

theorem append (u : Remapper) (ho : Register.queueTail ≠ offset) (q : InvalidationQueue) (d : Descriptor) :
    (u.append q d : Act σ RemapError Unit).Keeps (Spares cell offset) env := by
  have hpush : (q.push d : Act σ RemapError Unit).Keeps (Spares cell offset) env := by
    refine bind (view _) fun r => ?_
    split
    · exact fun _ => .of_trace rfl
    · exact bind (fun _ => .push rfl id) fun _ => bind (fun _ => .push rfl id) fun _ _ => .of_trace rfl
  have hclean : ∀ a, (Act.clean u.cleaner a 16 : Act σ RemapError Unit).Keeps (Spares cell offset) env := by
    intro a m
    rw [Act.after_of_ok (Act.clean_apply u.cleaner a 16 env m)]
    refine ⟨_, m.logs_noteAll _, fun e he => ?_⟩
    cases hc : u.cleaner with
    | platform =>
      rw [hc] at he
      exact List.mem_singleton.mp he ▸ id
    | lines size =>
      rw [hc] at he
      obtain ⟨line, -, rfl⟩ := List.mem_map.mp he
      exact id
  exact bind (fun m => awaitRoom u q env.patience m) fun _ => bind (view _) fun _ => bind hpush fun _ =>
    bind (hclean _) fun _ => bind (view _) fun _ => write64 _ ho _

theorem submit (u : Remapper) (ho : Register.queueTail ≠ offset) (q : InvalidationQueue) (ds : List Descriptor) :
    (u.submit q ds : Act σ RemapError Unit).Keeps (Spares cell offset) env := by
  have hall : (ds.forM (u.append q) : Act σ RemapError Unit).Keeps (Spares cell offset) env := by
    induction ds with
    | nil => exact pure _
    | cons d ds ih => exact bind (append u ho q d) fun _ => ih
  have hread : (u.readPointers : Act σ RemapError (Nat × Nat)).Keeps (Spares cell offset) env :=
    bind (read64 _ _) fun _ => bind (read64 _ _) fun _ => pure _
  exact bind hall fun _ => bind (view _) fun _ => bind (poll hread _) fun _ => pure _

/-- an invalidation leaves the address of the root table alone -/
theorem invalidate (u : Remapper) (s : Scope) (domain : UInt16) :
    (u.invalidate s domain).Keeps (Spares (σ := σ) cell Register.rootTable) env := by
  unfold Remapper.invalidate
  split
  · exact submit u (by decide) _ _
  · refine bind (commandRegister u (by decide) _) fun _ => commandRegister u (fun h => ?_) _
    have hmod := u.iotlbOffset_mod
    rw [h] at hmod
    exact absurd hmod (by decide)

end Machine.Spares

/-! ## commands in their order -/

/-- Each global command that the unit behind `cell` acts on among `es`, after the events `before`, comes after what `L`
asks for. -/
def Command.Allowed (cell : Nat) (L : List Event → UInt32 → Prop) (before es : List Event) : Prop :=
  ∀ es₁ b es₂, es = es₁ ++ .acted cell (.global b) :: es₂ → L (before ++ es₁) b

namespace Command.Allowed
variable {cell : Nat} {L L' : List Event → UInt32 → Prop} {before es fs : List Event} {bs : List UInt32} {m n : Machine σ}

theorem append (h : Allowed cell L before es) (h' : Allowed cell L (before ++ es) fs) :
    Allowed cell L before (es ++ fs) := by
  intro es₁ b es₂ he
  rcases List.append_eq_append_iff.mp he with ⟨as, rfl, hfs⟩ | ⟨as, rfl, hrest⟩
  · rw [← List.append_assoc]
    exact h' as b es₂ hfs
  · cases as with
    | nil =>
      have hfs : fs = .acted cell (.global b) :: es₂ := hrest.symm
      have hb := h' [] b es₂ hfs
      rwa [List.append_nil, List.append_nil] at hb
    | cons e as =>
      obtain ⟨rfl, -⟩ := List.cons.inj hrest
      exact h es₁ b as rfl

/-- the unit acts on no command -/
theorem of_none (h : ∀ b, .acted cell (.global b) ∉ es) : Allowed cell L before es := by
  rintro es₁ b es₂ rfl
  exact absurd (List.mem_append_right _ List.mem_cons_self) (h b)

/-- the unit acts on nothing but the commands `bs` -/
theorem of_commanded (h : m.Commanded cell bs n) (hl : m.Logs es n)
    (hL : ∀ es₁ es₂ b, es = es₁ ++ es₂ → b ∈ bs → L (before ++ es₁) b) : Allowed cell L before es := by
  obtain ⟨fs, hfs, hissued⟩ := h.logs
  obtain rfl := hl.inj hfs
  rintro es₁ b es₂ rfl
  exact hL es₁ _ b rfl (hissued.mem (List.mem_append_right _ List.mem_cons_self))

theorem of_nothing (h : m.Commanded cell [] n) (hl : m.Logs es n) : Allowed cell L before es := of_none (h.not_mem hl)

theorem mono (h : Allowed cell L before es) (hL : ∀ es₁ b, es₁ <+: es → L (before ++ es₁) b → L' (before ++ es₁) b) :
    Allowed cell L' before es := fun es₁ b es₂ he => hL _ _ ⟨_, he.symm⟩ (h es₁ b es₂ he)

/-- what happened before does not matter -/
theorem behind (h : Allowed cell L [] es) (hL : ∀ es b, L es b → L' (before ++ es) b) : Allowed cell L' before es :=
  fun es₁ b es₂ he => hL _ _ (h es₁ b es₂ he)

end Command.Allowed

/-- However `x` ends, after events of which `P` is true, each command that the unit acts on comes after what `L` asks
for; and `Q` is true if it ends with a result. -/
def Act.Obeys (cell : Nat) (L : List Event → UInt32 → Prop) (env : Env σ) (P Q : List Event → Prop) (x : Act σ ε α) :
    Prop :=
  ∀ m before, (m.devices.get cell).Free → P before → ∃ es, m.Logs es (x.after env m) ∧
    ((x.after env m).devices.get cell).Free ∧ Command.Allowed cell L before es ∧
    ∀ a n, x env m = .ok a n → Q (before ++ es)

open Machine (Accessed)
open Setting (AllIn)

namespace Act.Obeys
variable {cell : Nat} {L : List Event → UInt32 → Prop} {env : Env σ} {P Q R : List Event → Prop} {x : Act σ ε α}
  {ss : List Setting} {u : Remapper} {b : UInt32} {m n : Machine σ}

theorem bind {f : α → Act σ ε β} (hx : x.Obeys cell L env P Q) (hf : ∀ a, (f a).Obeys cell L env Q R) :
    (x >>= f).Obeys cell L env P R := by
  intro m before hfree hP
  obtain ⟨es, hes, hk, hallowed, hQ⟩ := hx m before hfree hP
  rw [after_bind, bind_apply]
  cases hr : x env m with
  | ok a k =>
    rw [after_of_ok hr] at hes hk
    obtain ⟨fs, hfs, hn, hallowed', hR⟩ := hf a k (before ++ es) hk (hQ a k hr)
    refine ⟨es ++ fs, hes.trans hfs, hn, hallowed.append hallowed', fun b n hb => ?_⟩
    rw [← List.append_assoc]
    exact hR b n hb
  | error e k =>
    rw [after_of_error hr] at hes hk
    exact ⟨es, hes, hk, hallowed, nofun⟩

theorem imp {P' Q' : List Event → Prop} (h : x.Obeys cell L env P Q) (hP : ∀ es, P' es → P es)
    (hQ : ∀ es, Q es → Q' es) : x.Obeys cell L env P' Q' := by
  intro m before hfree hP'
  obtain ⟨es, hes, hk, hallowed, hQes⟩ := h m before hfree (hP _ hP')
  exact ⟨es, hes, hk, hallowed, fun a n hx => hQ _ (hQes a n hx)⟩

theorem pure (hPQ : ∀ es, P es → Q es) (a : α) : (Pure.pure a : Act σ ε α).Obeys cell L env P Q :=
  fun _ before hfree hP => ⟨[], .refl rfl, hfree, fun es₁ _ _ he => by simp at he, fun _ _ _ => by
    rw [List.append_nil]
    exact hPQ before hP⟩

variable {offsets : List Nat}

/-- an action that asks for no command and leaves the registers alone -/
theorem quiet (hP : Lasts cell offsets P) (hi : x.Issues cell env [])
    (hs : ∀ o ∈ offsets, x.Keeps (Machine.Spares cell o) env) : x.Obeys cell L env P P := by
  intro m before hfree hbefore
  have hcommanded := hi.commanded_nil hfree
  obtain ⟨es, hes, -⟩ := hcommanded.logs
  exact ⟨es, hes, hcommanded.free, .of_nothing hcommanded hes, fun _ _ _ =>
    hP _ _ hbefore fun o ho => (hs o ho m).not_writes hes⟩

section
variable (hr : u.registers = .device cell)
include hr

variable (ss) in
/-- one more register is written -/
theorem write64 {offset : Nat} (ho : ∀ o ∈ ss.map Setting.offset, offset ≠ o) (v : Word) :
    (u.registers.write64 offset v : Act σ ε Unit).Obeys cell L env (AllIn cell ss)
      (AllIn cell (⟨offset, v, []⟩ :: ss)) := by
  intro m before hfree hP
  obtain ⟨rs, hrs, hmild⟩ := (Emulated.mild_write64 m.memory (m.devices.get cell).unit offset v).acted
  obtain ⟨n, hn, hd, hl⟩ := RegisterFile.write64_logs (ε := ε) hfree offset v hrs env
  rw [← hr] at hn
  have hspares : ∀ o ∈ ss.map Setting.offset, m.Spares cell o n := fun o hin => by
    rw [← after_of_ok hn]
    exact Machine.Spares.write64 _ (ho o hin) v m
  have hacted : ∀ e ∈ rs.map (Event.acted cell), ¬ e.Writes cell offset := fun e he => by
    obtain ⟨r, -, rfl⟩ := List.mem_map.mp he
    exact id
  rw [after_of_ok hn]
  refine ⟨_, hl, ?_, .of_none fun b hb => ?_, fun _ _ _ => ?_⟩
  · rw [hd]
    exact ⟨hfree.allowance, hfree.unscripted⟩
  · obtain ⟨r, hr, he⟩ := List.mem_map.mp ((List.mem_cons.mp hb).resolve_left nofun)
    injection he with _ he
    exact absurd he (hmild r hr b)
  · intro s hs
    rcases List.mem_cons.mp hs with rfl | hs
    · exact ⟨_, ⟨before, _, _, rfl, hacted, rfl⟩, nofun⟩
    · exact AllIn.lasts cell ss _ _ hP (fun o hin => (hspares o hin).not_writes hl) s hs

section
variable (hb : b ∈ Command.issued) (hg : Register.globalCommand ∉ offsets)
include hb hg

/-- a command, after what `L` asks for -/
theorem command_of (hP : Lasts cell offsets P) (hL : ∀ es, P es → L es b)
    (hQ : ∀ es fs s s', P es → (∀ o ∈ offsets, ∀ e ∈ fs, ¬ e.Writes cell o) → Command.Issued cell s fs s' [b] →
      Q (es ++ fs)) : (u.command b : Act σ ε Unit).Obeys cell L env P Q := by
  intro m before hfree hbefore
  obtain ⟨bs, hbs, hcommanded, hall⟩ := (Remapper.command_issues hr hb : (u.command b : Act σ ε Unit).Issues cell env [b]) m hfree
  obtain ⟨es, hes, hissued⟩ := hcommanded.logs
  have hspares : ∀ o ∈ offsets, ∀ e ∈ es, ¬ e.Writes cell o := fun o ho =>
    (Machine.Spares.command u (fun h => hg (h ▸ ho)) b m).not_writes hes
  refine ⟨es, hes, hcommanded.free, .of_commanded hcommanded hes fun es₁ es₂ b' he hb' => ?_, fun a n hn => ?_⟩
  · obtain rfl := List.mem_singleton.mp (hbs.subset hb')
    refine hL _ (hP _ _ hbefore fun o ho e hin => hspares o ho e ?_)
    rw [he]
    exact List.mem_append_left _ hin
  · rw [hall a n hn] at hissued
    exact hQ before es _ _ hbefore hspares hissued

theorem command (hP : Lasts cell offsets P) (hL : ∀ es, P es → L es b) :
    (u.command b : Act σ ε Unit).Obeys cell L env P P :=
  command_of hr hb hg hP hL fun es fs _ _ h hfs _ => hP es fs h hfs

end

variable (ss) in
/-- a one-shot command is done since the registers were written -/
theorem oneShot (hb : b ∈ Command.issued) (hg : Register.globalCommand ∉ ss.map Setting.offset)
    (hL : ∀ es, AllIn cell ss es → L es b) (hone : b &&& Command.oneShot ≠ 0) :
    (u.command b : Act σ ε Unit).Obeys cell L env (AllIn cell ss) (AllIn cell (ss.map (Setting.did b))) :=
  command_of hr hb hg (AllIn.lasts cell ss) hL fun _ _ _ _ h hfs hissued =>
    h.did hfs (hissued.acted_of_oneShot (List.mem_singleton_self b) hone)

end

end Act.Obeys

/-! ## bring-up -/

/-- The root table was set, and what was cached was dropped since: context entries, and then mappings if the unit can be
reached for that. -/
def Remapper.Flushed (u : Remapper) (cell : Nat) (c : Capabilities) (root : PhysAddr) (es : List Event) : Prop :=
  ∃ rs rs', LastWrote cell Register.rootTable root.bits (rs ++ .global Command.setRootTable :: rs') es ∧
    ⟨Descriptor.contextKind, Scope.global.code, 0⟩ ∈ rs'.filterMap Request.invalidation? ∧
    (u.Reaches c → (Scope.global.invalidations 0).Sublist (rs'.filterMap Request.invalidation?))

/-- does the event put something into the page? -/
def Event.Fills (page : PhysAddr) : Event → Prop
  | .stored a _ => a.frame = page.frame
  | _ => False

theorem Event.OfUnits.not_fills {e : Event} {page : PhysAddr} (h : e.OfUnits) : ¬ e.Fills page := by
  cases e with
  | stored => exact absurd h id
  | _ => exact id

/-- The address and the tail of the queue were written to the registers. Nothing was put into the queue since `m`, so its
own tail is still the one that it has there; and there the unit begins when the queue is turned on. -/
def InvalidationQueue.Posted (q : InvalidationQueue) (cell : Nat) (m : Machine σ) (es : List Event) : Prop :=
  (∀ e ∈ es, ¬ e.Fills q.base) ∧ ∃ tail rs rs', LastWrote cell Register.queueAddress q.base.bits rs es ∧
    LastWrote cell Register.queueTail tail rs' es ∧ slotOfPointer tail = (q.state m).tail ∧
    ∀ e : Emulated, (e.trigger Command.queuedInvalidation).head = (q.state m).tail

/-- what must have happened in a bring-up that begins at `m` before the unit acts on the command `b` -/
structure Remapper.InOrder (u : Remapper) (cell : Nat) (c : Capabilities) (root : PhysAddr) (interrupts : Option Word)
    (m : Machine σ) (es : List Event) (b : UInt32) : Prop where
  translation : b = Command.dmaRemapping → u.Flushed cell c root es
  remapping : b = Command.interruptRemapping → ∃ table rs, interrupts = some table ∧
    LastWrote cell Register.interruptTable table rs es ∧ .global Command.setInterruptTable ∈ rs
  queue : b = Command.queuedInvalidation → ∃ q, u.queue = some q ∧ q.Posted cell m es

/-- from `m` to `n` a unit was driven to drop what is cached: context entries, and mappings too if it can be reached for
that -/
def Remapper.Drops (u : Remapper) (cell : Nat) (c : Capabilities) (m n : Machine σ) : Prop :=
  ∃ rs, m.Driven u cell rs n ∧ ⟨Descriptor.contextKind, Scope.global.code, 0⟩ ∈ rs.filterMap Request.invalidation? ∧
    (u.Reaches c → rs.filterMap Request.invalidation? = Scope.global.invalidations 0)

namespace Remapper
variable {u : Remapper} {cell N : Nat} {c : Capabilities} {root : PhysAddr} {interrupts : Option Word} {m k n : Machine σ}
  {es : List Event} {b : UInt32} {env : Env σ} {L : List Event → UInt32 → Prop}

theorem Flushed.lasts (u : Remapper) (cell : Nat) (c : Capabilities) (root : PhysAddr) :
    Lasts cell [Register.rootTable] (u.Flushed cell c root) := by
  rintro es fs ⟨rs, rs', hlast, hcontext, hall⟩ hfs
  have hlast := hlast.append (hfs _ List.mem_cons_self)
  rw [List.append_assoc, List.cons_append] at hlast
  refine ⟨rs, _, hlast, ?_, fun hr => ?_⟩ <;> rw [List.filterMap_append]
  · exact List.mem_append_left _ hcontext
  · exact (hall hr).trans (List.sublist_append_left ..)

namespace InOrder

/-- the other commands come when they are issued -/
theorem other (ht : b ≠ Command.dmaRemapping) (hi : b ≠ Command.interruptRemapping) (hq : b ≠ Command.queuedInvalidation) :
    u.InOrder cell c root interrupts m es b :=
  ⟨fun h => absurd h ht, fun h => absurd h hi, fun h => absurd h hq⟩

/-- what happened before does not matter, if the unit was left alone -/
theorem behind {fs : List Event} (h : u.InOrder cell c root interrupts k es b) (hk : u.Untouched cell m k)
    (hfs : ∀ q, u.queue = some q → ∀ e ∈ fs, ¬ e.Fills q.base) : u.InOrder cell c root interrupts m (fs ++ es) b := by
  refine ⟨fun hb => ?_, fun hb => ?_, fun hb => ?_⟩
  · obtain ⟨rs, rs', hlast, hrest⟩ := h.translation hb
    exact ⟨rs, rs', hlast.behind fs, hrest⟩
  · obtain ⟨table, rs, htable, hlast, hrest⟩ := h.remapping hb
    exact ⟨table, rs, htable, hlast.behind fs, hrest⟩
  · obtain ⟨q, hq, hes, tail, rs, rs', hlast, hlast', hrest⟩ := h.queue hb
    rw [hk.ring q hq] at hrest
    exact ⟨q, hq, List.forall_mem_append.mpr ⟨hfs q hq, hes⟩, tail, rs, rs', hlast.behind fs, hlast'.behind fs, hrest⟩

end InOrder

/-! ## the three steps -/

/-- a unit that is ready hears of it through either discipline -/
theorem Ready.drops (h : u.Ready cell c N m) (hc : c.Disjoint) (h2 : 2 ≤ env.patience) (hN : N ≤ env.patience) :
    ∃ n, u.invalidateContexts env m = .ok () n ∧ u.Drops cell c m n := by
  cases hu : u.queue with
  | some q =>
    obtain ⟨n, hn, hd, -⟩ := h.invalidate_queued h2 .global 0 hu hN
    have hrequest := queued_request .global 0
    exact ⟨n, hn, _, hd, hrequest ▸ List.mem_cons_self, fun _ => hrequest⟩
  | none =>
    obtain ⟨n, rs, rs', hn, hd, -, hrs, hrs', -⟩ := h.invalidate_commanded h2 .global 0 hu
    rw [if_pos (hc.faults _ (by decide))] at hrs
    subst hrs
    exact ⟨n, hn, _, hd, List.mem_cons_self, fun hreach => by rw [hrs' (hreach hu)]; rfl⟩

section
variable (hr : u.registers = .device cell)
include hr

/-- the tables are set before remapping of interrupts is switched on -/
theorem aim_obeys (event : Option FaultEvent) (hroot : ∀ es, L es Command.setRootTable)
    (htable : ∀ es, L es Command.setInterruptTable)
    (hremap : ∀ table es, interrupts = some table →
      AllIn cell [⟨Register.interruptTable, table, [Command.setInterruptTable]⟩] es → L es Command.interruptRemapping) :
    (u.aim root interrupts event : Act σ ε Unit).Obeys cell L env (AllIn cell [])
      (AllIn cell [⟨Register.rootTable, root.bits, [Command.setRootTable]⟩]) := by
  have hfaults : (u.routeFaults event : Act σ ε Unit).Obeys cell L env (AllIn cell []) (AllIn cell []) :=
    .quiet (AllIn.lasts cell []) (.routeFaults hr event) nofun
  have hg : Register.globalCommand ∉ [Register.interruptTable, Register.rootTable] := by decide
  refine hfaults.bind fun _ => (Act.Obeys.write64 [] hr (List.forall_mem_nil _) root.bits).bind fun _ =>
    (Act.Obeys.oneShot [⟨Register.rootTable, root.bits, []⟩] hr (by decide) (List.not_mem_of_not_mem_cons hg)
      (fun es _ => hroot es) (by decide)).bind fun _ => ?_
  cases interrupts with
  | none => exact .pure (fun _ => id) ()
  | some table =>
    have ho : ∀ o ∈ [Register.rootTable], Register.interruptTable ≠ o := by decide
    refine (Act.Obeys.write64 [⟨Register.rootTable, root.bits, [Command.setRootTable]⟩] hr ho table).bind fun _ =>
      (Act.Obeys.oneShot [⟨Register.interruptTable, table, []⟩, ⟨Register.rootTable, root.bits, [Command.setRootTable]⟩]
        hr (by decide) hg (fun es _ => htable es) (by decide)).bind fun _ => ?_
    have hlasts := AllIn.lasts cell [⟨Register.interruptTable, table, [Command.setInterruptTable]⟩,
      ⟨Register.rootTable, root.bits, [Command.setInterruptTable, Command.setRootTable]⟩]
    refine (Act.Obeys.command hr (by decide) hg hlasts fun es h => hremap table es rfl fun s hs =>
      h s (List.mem_cons.mpr (.inl (List.mem_singleton.mp hs)))).imp (fun _ => id) fun es h s hs => ?_
    rw [List.mem_singleton.mp hs]
    obtain ⟨rs, hlast, hdone⟩ := h _ (List.mem_cons_of_mem _ List.mem_cons_self)
    exact ⟨rs, hlast, fun b hb => hdone b (List.mem_cons_of_mem _ hb)⟩

/-- the queue is posted before it is switched on -/
theorem post_obeys (address tail : Word) (hqueue : ∀ es, AllIn cell [⟨Register.queueAddress, address, []⟩,
    ⟨Register.queueTail, tail, []⟩] es → L es Command.queuedInvalidation) : (do
      u.registers.write64 Register.queueTail tail
      u.registers.write64 Register.queueAddress address
      u.command Command.queuedInvalidation : Act σ ε Unit).Obeys cell L env
        (AllIn cell [⟨Register.rootTable, root.bits, [Command.setRootTable]⟩])
        (AllIn cell [⟨Register.rootTable, root.bits, [Command.setRootTable]⟩]) := by
  have htail : ∀ o ∈ [Register.rootTable], Register.queueTail ≠ o := by decide
  have haddress : ∀ o ∈ [Register.queueTail, Register.rootTable], Register.queueAddress ≠ o := by decide
  have hg : Register.globalCommand ∉ [Register.queueAddress, Register.queueTail, Register.rootTable] := by decide
  have hlasts := AllIn.lasts cell [⟨Register.queueAddress, address, []⟩, ⟨Register.queueTail, tail, []⟩,
    ⟨Register.rootTable, root.bits, [Command.setRootTable]⟩]
  refine (Act.Obeys.write64 [⟨Register.rootTable, root.bits, [Command.setRootTable]⟩] hr htail tail).bind fun _ =>
    (Act.Obeys.write64 [⟨Register.queueTail, tail, []⟩, ⟨Register.rootTable, root.bits, [Command.setRootTable]⟩] hr
      haddress address).bind fun _ => ?_
  refine (Act.Obeys.command hr (by decide) hg hlasts fun es h => hqueue es fun s hs => h s ?_).imp (fun _ => id)
    fun es h s hs => h s (List.mem_cons_of_mem _ (List.mem_cons_of_mem _ hs))
  exact List.mem_append_left [⟨Register.rootTable, root.bits, [Command.setRootTable]⟩] hs

/-- so it is if its ring is new -/
theorem openQueue_allowed (env : Env σ) (hring : ∀ q, u.queue = some q → q.state m = {}) (hfree : (m.devices.get cell).Free)
    (hset : AllIn cell [⟨Register.rootTable, root.bits, [Command.setRootTable]⟩] es)
    (hqueue : ∀ q, u.queue = some q → ∀ es, AllIn cell [⟨Register.queueAddress, q.base.bits, []⟩,
      ⟨Register.queueTail, ({} : RingState).tailRegister, []⟩] es → L es Command.queuedInvalidation) :
    ∃ fs, m.Logs fs ((u.openQueue : Act σ ε Unit).after env m) ∧
      (((u.openQueue : Act σ ε Unit).after env m).devices.get cell).Free ∧ Command.Allowed cell L es fs ∧
      ∀ a n, (u.openQueue : Act σ ε Unit) env m = .ok a n →
        AllIn cell [⟨Register.rootTable, root.bits, [Command.setRootTable]⟩] (es ++ fs) := by
  cases hu : u.queue with
  | none =>
    have hrun : (u.openQueue : Act σ ε Unit) = pure () := by
      unfold openQueue
      rw [hu]
    rw [hrun]
    exact ⟨[], .refl rfl, hfree, .of_none fun _ => List.not_mem_nil, fun _ _ _ => by rwa [List.append_nil]⟩
  | some q =>
    have hrun : (u.openQueue : Act σ ε Unit) env m = (do
        u.registers.write64 Register.queueTail (({} : RingState).tailRegister)
        u.registers.write64 Register.queueAddress q.base.bits
        u.command Command.queuedInvalidation : Act σ ε Unit) env m := by
      rw [← hring q hu]
      unfold openQueue
      rw [hu]
      rfl
    unfold Act.after
    rw [hrun]
    exact post_obeys hr q.base.bits _ (hqueue q hu) m es hfree hset

/-- translation is switched on if `P` stays true until then -/
theorem switchOn_obeys {P : List Event → Prop} (hP : Lasts cell [Register.rootTable] P)
    (hswitch : ∀ es, P es → L es Command.dmaRemapping) (interrupts : Bool) : (do
      u.command Command.dmaRemapping
      let version ← u.registers.read32 Register.version
      Act.log .info (u.reportLine version interrupts) : Act σ ε Unit).Obeys cell L env P P := by
  refine (Act.Obeys.command hr (by decide) (by decide) hP hswitch).bind fun _ =>
    (Act.Obeys.quiet hP (.read32 hr _) fun _ _ => .read32 _ _).bind fun _ => ?_
  exact .quiet hP (.note id) fun _ _ _ => .push rfl id

theorem accessed_command (b : UInt32) : (u.command b : Act σ ε Unit).Keeps Accessed env := by
  have hpoll : (Act.poll (u.registers.read32 Register.globalStatus) fun s => s &&& b != 0 : Act σ ε UInt32).Keeps
      Accessed env := Act.Keeps.poll (R := Accessed) .refl (fun _ _ _ => .trans)
        (hr ▸ RegisterFile.accessed_read32 cell _) _
  unfold command
  split
  · exact fun m => .refl m
  · rw [hr] at hpoll ⊢
    exact Accessed.bind (RegisterFile.accessed_read32 cell _) fun _ =>
      Accessed.bind (RegisterFile.accessed_write32 cell _ _) fun _ => Accessed.bind hpoll fun _ m => .refl m

theorem accessed_openQueue : (u.openQueue : Act σ ε Unit).Keeps Accessed env := by
  have hcommand : (u.command Command.queuedInvalidation : Act σ ε Unit).Keeps Accessed env := accessed_command hr _
  unfold openQueue
  split
  · rw [hr]
    exact Accessed.bind (Accessed.view _) fun _ => Accessed.bind (RegisterFile.accessed_write64 cell _ _) fun _ =>
      Accessed.bind (RegisterFile.accessed_write64 cell _ _) fun _ => hcommand
  · exact fun m => .refl m

/-- what was cached is dropped, and then translation is switched on -/
theorem enable_allowed (hfree : (m.devices.get cell).Free)
    (hset : AllIn cell [⟨Register.rootTable, root.bits, [Command.setRootTable]⟩] es)
    (hdrops : ∀ n, u.invalidateContexts env m = .ok () n → u.Drops cell c m n)
    (hswitch : ∀ es, u.Flushed cell c root es → L es Command.dmaRemapping) (interrupts : Bool) :
    ∃ fs, m.Logs fs ((u.enable interrupts).after env m) ∧ Command.Allowed cell L es fs := by
  have hcommanded : m.Commanded cell [] (u.invalidateContexts.after env m) :=
    (Act.Issues.invalidate hr .global 0).commanded_nil hfree
  obtain ⟨fs, hfs, -⟩ := hcommanded.logs
  have hnone : Command.Allowed cell L es fs := .of_nothing hcommanded hfs
  have hspares : ∀ e ∈ fs, ¬ e.Writes cell Register.rootTable := (Machine.Spares.invalidate u .global 0 m).not_writes hfs
  unfold enable
  rw [Act.after_bind]
  cases hrun : u.invalidateContexts env m with
  | error e n =>
    rw [Act.after_of_error hrun] at hfs
    exact ⟨fs, hfs, hnone⟩
  | ok _ n =>
    rw [Act.after_of_ok hrun] at hfs hcommanded
    obtain ⟨rs, hdriven, hcontext, hall⟩ := hdrops n hrun
    have hrequests : requestsOf cell fs = rs := by
      obtain ⟨fs', hfs', -, hacted⟩ := hdriven.logs
      rw [hfs.inj hfs']
      exact requestsOf_eq hacted
    have hflushed : u.Flushed cell c root (es ++ fs) := by
      obtain ⟨rs₀, hlast, hdone⟩ := hset _ List.mem_cons_self
      obtain ⟨rs₁, rs₂, rfl⟩ := List.append_of_mem (hdone _ List.mem_cons_self)
      have hlast := hlast.append hspares
      rw [hrequests, List.append_assoc, List.cons_append] at hlast
      refine ⟨rs₁, rs₂ ++ rs, hlast, ?_, fun hreach => ?_⟩ <;> rw [List.filterMap_append]
      · exact List.mem_append_right _ hcontext
      · rw [hall hreach]
        exact List.sublist_append_right ..
    obtain ⟨gs, hgs, -, hallowed, -⟩ :=
      switchOn_obeys hr (Flushed.lasts u cell c root) hswitch interrupts n (es ++ fs) hcommanded.free hflushed
    exact ⟨fs ++ gs, hfs.trans hgs, hnone.append hallowed⟩

end

/-! ## all of it -/

/-- a queue with a new ring is posted by accesses to registers alone -/
theorem posted_of_units {q : InvalidationQueue} (hring : q.state m = {}) (hes : ∀ e ∈ es, e.OfUnits)
    (h : AllIn cell [⟨Register.queueAddress, q.base.bits, []⟩,
      ⟨Register.queueTail, ({} : RingState).tailRegister, []⟩] es) : q.Posted cell m es := by
  obtain ⟨rs, hlast, -⟩ := h _ List.mem_cons_self
  obtain ⟨rs', hlast', -⟩ := h _ (List.mem_cons_of_mem _ List.mem_cons_self)
  refine ⟨fun e he => (hes e he).not_fills, _, rs, rs', hlast, hlast', ?_, fun e => ?_⟩ <;> rw [hring]
  · rfl
  · rfl

/-- nothing is put into pages that are not its own -/
theorem Startable.start_fills (hs : u.Startable cell c N m) {page : PhysAddr} (hpage : page.frame ∉ u.frames)
    (root : PhysAddr) (interrupts : Option Word) (event : Option FaultEvent)
    (hes : m.Logs es ((u.start root interrupts event).after env m)) : ∀ e ∈ es, ¬ e.Fills page := by
  have hsound : u.Sound m := fun q hq => ⟨(hs.queue q hq).1, by rw [(hs.queue q hq).2]; decide⟩
  have hupholds : u.Upholds fun k : Machine σ => u.Sound k ∧ ∃ fs, m.Logs fs k ∧ ∀ e ∈ fs, ¬ e.Fills page := by
    have hmore : ∀ {k n : Machine σ} {fs gs : List Event}, m.Logs fs k → (∀ e ∈ fs, ¬ e.Fills page) → k.Logs gs n →
        (∀ e ∈ gs, ¬ e.Fills page) → ∃ fs, m.Logs fs n ∧ ∀ e ∈ fs, ¬ e.Fills page := fun hfs hf hgs hg =>
      ⟨_, hfs.trans hgs, List.forall_mem_append.mpr ⟨hf, hg⟩⟩
    refine ⟨And.left, ?_, ?_, ?_, ?_, ?_⟩
    · rintro k n ⟨h, fs, hfs, hf⟩ ha
      obtain ⟨gs, hgs, hg⟩ := ha.logs
      exact ⟨h.of_rings ha.rings, hmore hfs hf hgs fun e he => (hg e he).not_fills⟩
    · rintro k gs ⟨h, fs, hfs, hf⟩ hg
      refine ⟨h.of_rings rfl, hmore hfs hf (k.logs_noteAll gs) fun e he => ?_⟩
      cases e with
      | stored => exact absurd (hg _ he) id
      | _ => exact id
    · intro k a v _ ha
      rw [hs.registers] at ha
      cases ha
    · rintro k q a v ⟨h, fs, hfs, hf⟩ hq ha
      refine ⟨h.of_rings rfl, hmore hfs hf (.push rfl) fun e he => ?_⟩
      rw [List.mem_singleton.mp he]
      exact fun hframe => hpage ⟨q, hq, ha.symm.trans hframe⟩
    · rintro k q f ⟨h, hfs⟩ _ hf
      exact ⟨h.moved hf, hfs⟩
  obtain ⟨-, fs, hfs, hf⟩ := hupholds.start root interrupts event m ⟨hsound, [], .refl rfl, nofun⟩
  rwa [hes.inj hfs]

/-- once its queue is open, a unit drops what it has cached, or never finds its invalidation done -/
theorem Idle.openQueue_drops (hi : u.Idle cell c N m) (hc : c.Disjoint) (h2 : 2 ≤ env.patience)
    (hN : N ≤ env.patience) : ∃ n, (u.openQueue : Act σ RemapError Unit) env m = .ok () n ∧
      ∀ n', u.invalidateContexts env n = .ok () n' → u.Drops cell c n n' := by
  have hp : 0 < env.patience := Nat.lt_of_lt_of_le Nat.zero_lt_two h2
  by_cases hsettles : u.queue = none → ∀ offset ∈ u.commandOffsets, (m.devices.get cell).unit.Settles offset
  · obtain ⟨n, -, hn, -, -, hready⟩ := openQueue_ok (ε := RemapError) hp hi hsettles
    obtain ⟨n₁, hn₁, hdrops⟩ := hready.drops hc h2 hN
    refine ⟨n, hn, fun n' hn' => ?_⟩
    rw [hn₁] at hn'
    injection hn' with _ e
    exact e ▸ hdrops
  · obtain ⟨hu, hnot⟩ := Classical.not_imp.mp hsettles
    obtain ⟨n, hn⟩ := invalidate_stuck (m := m) rfl hi.registers hi.wakes hu hnot hp .global 0
    refine ⟨m, ?_, fun n' hn' => by cases hn.symm.trans hn'⟩
    unfold openQueue
    rw [hu]
    rfl

/-- a new unit is brought up in order, however its bring-up ends -/
theorem Startable.start_allowed (hs : u.Startable cell c N m) (hc : c.Disjoint) (h2 : 2 ≤ env.patience)
    (hN : N ≤ env.patience) (root : PhysAddr) (interrupts : Option Word) (event : Option FaultEvent) :
    ∃ es, m.Logs es ((u.start root interrupts event).after env m) ∧
      Command.Allowed cell (u.InOrder cell c root interrupts m) [] es := by
  have hp : 0 < env.patience := Nat.lt_of_lt_of_le Nat.zero_lt_two h2
  have hr := hs.registers
  -- up to the queue nothing happens but accesses to registers
  obtain ⟨L, hL⟩ : ∃ L : List Event → UInt32 → Prop, ∀ es b,
    L es b ↔ ((∀ e ∈ es, e.OfUnits) → u.InOrder cell c root interrupts m es b) := ⟨_, fun _ _ => Iff.rfl⟩
  have hother : ∀ {b}, b ≠ Command.dmaRemapping → b ≠ Command.interruptRemapping → b ≠ Command.queuedInvalidation →
    ∀ es, L es b := fun ht hi hq es => (hL es _).mpr fun _ => .other ht hi hq
  obtain ⟨k, hk, hpk⟩ := aim_ok (ε := RemapError) hp hr hs.wakes root interrupts event
  obtain ⟨es, hes, -, hallowed, hset⟩ := aim_obeys (ε := RemapError) (L := L) hr event
    (hother (by decide) (by decide) (by decide)) (hother (by decide) (by decide) (by decide))
    (fun table es hi h => (hL es _).mpr fun _ => ⟨fun hb => absurd hb (by decide), fun _ => by
      obtain ⟨rs, hlast, hdone⟩ := h _ List.mem_cons_self
      exact ⟨table, rs, hi, hlast, hdone _ List.mem_cons_self⟩, fun hb => absurd hb (by decide)⟩)
    m [] hs.wakes.free (List.forall_mem_nil _)
  have hset : AllIn cell [⟨Register.rootTable, root.bits, [Command.setRootTable]⟩] es := hset () k hk
  rw [Act.after_of_ok hk] at hes
  obtain ⟨fs, hfs, hfree, hallowed', hset'⟩ := openQueue_allowed (ε := RemapError) (L := L) hr env
    (fun q hq => (congrArg (·.get q.cell) hpk.accessed.rings).trans (hs.queue q hq).2) hpk.free hset
    fun q hq es h => (hL es _).mpr fun hunits => ⟨fun hb => absurd hb (by decide), fun hb => absurd hb (by decide),
      fun _ => ⟨q, hq, posted_of_units (hs.queue q hq).2 hunits h⟩⟩
  have hunits : ∀ e ∈ es ++ fs, e.OfUnits := by
    obtain ⟨es', hes', he⟩ := hpk.accessed.logs
    obtain ⟨fs', hfs', hf⟩ := (accessed_openQueue hr k).logs
    rw [hes.inj hes', hfs.inj hfs']
    exact List.forall_mem_append.mpr ⟨he, hf⟩
  have hbefore : Command.Allowed cell (u.InOrder cell c root interrupts m) [] (es ++ fs) :=
    (hallowed.append hallowed').mono fun es₁ b hes₁ h => (hL _ b).mp h fun e he => hunits e (hes₁.subset he)
  -- a unit that never finds its invalidation done stops there
  obtain ⟨n, hn, hdrops⟩ := (hpk.idle hs.idle).openQueue_drops hc h2 hN
  have hset' := hset' () n hn
  rw [Act.after_of_ok hn] at hfs hfree
  obtain ⟨gs, hgs, hallowed''⟩ := enable_allowed (L := u.InOrder cell c root interrupts m) hr hfree hset' hdrops
    (fun es h => ⟨fun _ => h, fun hb => absurd hb (by decide), fun hb => absurd hb (by decide)⟩) interrupts.isSome
  refine ⟨es ++ fs ++ gs, ?_, hbefore.append hallowed''⟩
  rw [start_eq, Act.after_bind, hk]
  simp only
  rw [Act.after_bind, hn]
  exact (hes.trans hfs).trans hgs

end Remapper

end NestedPaging
