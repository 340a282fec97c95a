import NestedPaging.Proofs.Tree.Calm

/-!
# Operations run while another waits for a page

A `Schedule` says which operations run, one after the other, whenever a page is asked for, and logs
how each of them ended (`Tree.interleaved`). A history of views explains such a log if each entry
moves the view as its operation says and each lookup reports what the view has at its turn
(`Explains`).

`Tree.Ran` says what a list of operations does to a tree. A table stays on a path, or from some
operation of the list on it makes no difference what was mapped in the block of the table before.
-/

namespace NestedPaging

variable {σ ε α : Type}

def Act.outcome (x : Act σ ε α) (env : Env σ) (m : Machine σ) : Except (Stop ε) α :=
  match x env m with
  | .ok v _ => .ok v
  | .error e _ => .error e

/-- an operation, with how it ended -/
structure Done where
  op : TreeOp
  outcome : Except (Stop TableError) TreeReply

/-- `k` of the pieces are done when an operation ends with `outcome`: all, or all but the last at
most if it fails -/
def Completed (pieces : List (Mapping × Nat)) (outcome : Except (Stop TableError) TreeReply)
    (k : Nat) : Prop :=
  match outcome with
  | .ok _ => k = pieces.length
  | .error _ => k ≤ pieces.length - 1

/-- what an operation may do to a view -/
structure Done.Moves (f : Format) (split : Bool) (d : Done) (v v' : View) : Prop where
  effect : ∃ k, Completed (d.op.pieces f) d.outcome k ∧
    v' = f.effects split ((d.op.pieces f).take k) v
  /-- a lookup reports what is there -/
  report : ∀ a, d.op = .lookup a → ∃ l, d.outcome = .ok (.leaf l) ∧
    l.map (Leaf.translation a) = v a

/-- whole operations and single updates, done one after the other -/
abbrev Order := List (Done ⊕ (Mapping × Nat))

def Order.Step (f : Format) (split : Bool) : Done ⊕ (Mapping × Nat) → View → View → Prop
  | .inl d, v, v' => d.Moves f split v v'
  | .inr d, v, v' => v' = d.1.effect f split d.2 v

/-- `v'` comes from `v` by the steps of the order, each reporting what it finds -/
inductive Explains (f : Format) (split : Bool) : Order → View → View → Prop
  | nil {v : View} : Explains f split [] v v
  | cons {e : Done ⊕ (Mapping × Nat)} {es : Order} {v v' v'' : View} :
      Order.Step f split e v v' → Explains f split es v' v'' → Explains f split (e :: es) v v''

/-- views that differ only in the block of `a` at `level` -/
def AgreeOff (a : GuestAddr) (level : Nat) (v v' : View) : Prop :=
  ∀ b : GuestAddr, b.block level ≠ a.block level → v b = v' b

/-- what was mapped in the block of `a` at `level` at the start makes no difference -/
def Explains.Forgets (f : Format) (split : Bool) (es : Order) (v v' : View) (a : GuestAddr)
    (level : Nat) : Prop := ∀ w, AgreeOff a level w v → Explains f split es w v'

namespace Explains
variable {f : Format} {split : Bool} {es es' : Order} {v v' v'' : View} {a : GuestAddr}
  {level : Nat}

theorem append (h : Explains f split es v v') (h' : Explains f split es' v' v'') :
    Explains f split (es ++ es') v v'' := by
  induction h with
  | nil => exact h'
  | cons hs _ ih => exact .cons hs (ih h')

theorem single {e : Done ⊕ (Mapping × Nat)} (h : Order.Step f split e v v') :
    Explains f split [e] v v' := .cons h .nil

theorem Forgets.append (h : Forgets f split es v v' a level) (h' : Explains f split es' v' v'') :
    Forgets f split (es ++ es') v v'' a level := fun w hw => (h w hw).append h'

theorem Forgets.lower (h : Forgets f split es v v' a (level + 1)) :
    Forgets f split es v v' a level :=
  fun w hw => h w fun b hb => hw b fun e => hb (b.block_le_of_le (Nat.le_succ level) e)

end Explains

/-! ## effects and blocks -/

section
variable {f : Format} {split : Bool} {done : List (Mapping × Nat)} {v w : View} {a : GuestAddr}
  {level : Nat}

theorem AgreeOff.effect (h : AgreeOff a level w v) (d : Mapping × Nat) :
    AgreeOff a level (d.1.effect f split d.2 w) (d.1.effect f split d.2 v) := by
  intro b hb
  unfold Mapping.effect
  split
  · rfl
  · exact h b hb

/-- a request that covers the block leaves nothing of it -/
theorem Swallows.effect {d : Mapping × Nat} (hs : Swallows d a level) (h : AgreeOff a level w v) :
    d.1.effect f split d.2 w = d.1.effect f split d.2 v := by
  funext b
  unfold Mapping.effect
  by_cases hb : b.block level = a.block level
  · rw [if_pos (hs b hb), if_pos (hs b hb)]
  · split
    · rfl
    · exact h b hb

theorem effects_of_swallows {d : Mapping × Nat} (hd : d ∈ done) (hs : Swallows d a level)
    (h : AgreeOff a level w v) : f.effects split done w = f.effects split done v := by
  induction done generalizing v w with
  | nil => cases hd
  | cons e done ih =>
    show f.effects split done (e.1.effect f split e.2 w)
      = f.effects split done (e.1.effect f split e.2 v)
    rcases List.mem_cons.mp hd with rfl | hd
    · rw [hs.effect h]
    · exact ih hd (h.effect e)

theorem Done.Moves.of_swallows {d : Done} {v' : View} {k : Nat}
    (hk : Completed (d.op.pieces f) d.outcome k)
    (hv : v' = f.effects split ((d.op.pieces f).take k) v)
    {e : Mapping × Nat} (he : e ∈ (d.op.pieces f).take k) (hs : Swallows e a level)
    (h : AgreeOff a level w v) : d.Moves f split w v' where
  effect := ⟨k, hk, by rw [hv, effects_of_swallows he hs h]⟩
  report b hb := by
    rw [hb] at he
    exact absurd (List.mem_of_mem_take he) List.not_mem_nil

end

/-! ## schedules -/

/-- what runs while pages are asked for, and what ran -/
structure Schedule where
  pending : List (List TreeOp)
  log : List Done

/-- nobody else is at work; the allocator looks at the machine and offers a page -/
def Env.alone (offer : Machine σ → Option PhysAddr) : Env σ where
  supply m := (m, offer m)
  rank _ := 0
  patience := 0

namespace Tree

/-- operations run one after the other -/
def runAll (t : Tree) (env : Env σ) : List TreeOp → Machine σ → Machine σ × List Done
  | [], m => (m, [])
  | op :: ops, m =>
    let (n, ds) := runAll t env ops ((t.perform op).after env m)
    (n, ⟨op, (t.perform op).outcome env m⟩ :: ds)

/-- whenever a page is asked for, the next operations of the schedule run first -/
def interleaved (t : Tree) (offer : Machine Schedule → Option PhysAddr) : Env Schedule where
  supply m :=
    match m.client.pending with
    | [] => (m, offer m)
    | ops :: rest =>
      let (n, ds) := t.runAll (.alone offer) ops m
      let n := { n with client := ⟨rest, m.client.log ++ ds⟩ }
      (n, offer n)
  rank s := s.pending.length
  patience := 0

variable {t : Tree} {others : Nat → Prop} {env : Env σ} {own own' : Layout} {m n : Machine σ}
  {J : List (Mapping × Nat) → Layout → Machine σ → Prop} {op : TreeOp}

theorem Performed.completed (h : t.Performed env J own op (t.perform op env m)) :
    ((t.perform op).outcome env m = .error .stuck → ¬ env.Paced) ∧
    ∃ own' k, own'.Extends own ∧ Completed (op.pieces t.format) ((t.perform op).outcome env m) k ∧
      J ((op.pieces t.format).take k) own' ((t.perform op).after env m) := by
  unfold Act.outcome Act.after
  cases hr : t.perform op env m with
  | ok v n =>
    rw [hr] at h
    obtain ⟨own', hx, hn⟩ := h
    refine ⟨nofun, own', _, hx, rfl, ?_⟩
    rw [List.take_length]
    exact hn
  | error e n =>
    rw [hr] at h
    obtain ⟨hs, own', hx, k, hk, hn⟩ := h
    exact ⟨fun e => hs (Except.error.inj e), own', k, hx, hk, hn⟩

/-- what operations do to a tree that run one after the other -/
structure Ran (t : Tree) (others : Nat → Prop) (own own' : Layout) (m n : Machine σ)
    (ops : List TreeOp) (ds : List Done) : Prop where
  grows : own'.Extends own
  owns : t.Owns others own' (t.tables n)
  split : n.splitExecute = m.splitExecute
  ops : ds.map Done.op = ops
  explains : Explains t.format m.splitExecute (ds.map .inl) (t.view m.memory) (t.view n.memory)
  path : ∀ {a r}, t.format.inRange a = true → r ∈ t.path m.memory a → r ∈ t.path n.memory a ∨
    ∃ ds₁ ds₂ v, ds = ds₁ ++ ds₂ ∧
      Explains t.format m.splitExecute (ds₁.map .inl) (t.view m.memory) v ∧
      Explains.Forgets t.format m.splitExecute (ds₂.map .inl) v (t.view n.memory) a (r.level + 1)

theorem Calm.ran (hh : env.Honest) (hc : t.Calm env) (h : t.Owns others own (t.tables m))
    (op : TreeOp) : ∃ own', t.Ran others own own' m ((t.perform op).after env m) [op]
      [⟨op, (t.perform op).outcome env m⟩] := by
  obtain ⟨_, own', k, _, hk, hm⟩ := (Calm.perform hh hc h op).completed
  have hmoves : ∀ a : GuestAddr, op = .lookup a → ∃ l, (t.perform op).outcome env m = .ok (.leaf l) ∧
      l.map (Leaf.translation a) = t.view m.memory a := by
    rintro a rfl
    exact ⟨t.leaf? m.memory a, rfl, rfl⟩
  refine ⟨own', hm.grows, hm.owns, hm.split, rfl, .single ⟨⟨k, hk, hm.view⟩, hmoves⟩, ?_⟩
  intro a r ha hr
  rcases hm.path ha hr with hr' | ⟨d, hd, hs⟩
  · exact .inl hr'
  · exact .inr ⟨[], _, _, rfl, .nil, fun w hw => .single (.of_swallows hk hm.view hd hs hw)⟩

theorem Ran.trans {k : Machine σ} {own'' : Layout} {ops ops' : List TreeOp} {ds ds' : List Done}
    (h : t.Ran others own own' m k ops ds) (h' : t.Ran others own' own'' k n ops' ds') :
    t.Ran others own own'' m n (ops ++ ops') (ds ++ ds') where
  grows := h'.grows.trans h.grows
  owns := h'.owns
  split := h'.split.trans h.split
  ops := by rw [List.map_append, h.ops, h'.ops]
  explains := by
    rw [List.map_append]
    exact h.explains.append (h.split ▸ h'.explains)
  path {a r} ha hr := by
    rcases h.path ha hr with hr' | ⟨ds₁, ds₂, v, rfl, he, hf⟩
    · rcases h'.path ha hr' with hr'' | ⟨ds₁, ds₂, v, rfl, he, hf⟩
      · exact .inl hr''
      · refine .inr ⟨ds ++ ds₁, ds₂, v, (List.append_assoc ..).symm, ?_, h.split ▸ hf⟩
        rw [List.map_append]
        exact h.explains.append (h.split ▸ he)
    · refine .inr ⟨ds₁, ds₂ ++ ds', v, List.append_assoc .., he, ?_⟩
      rw [List.map_append]
      exact hf.append (h.split ▸ h'.explains)

theorem Calm.ranAll (hh : env.Honest) (hc : t.Calm env) (ops : List TreeOp)
    (h : t.Owns others own (t.tables m)) :
    ∃ own', t.Ran others own own' m (t.runAll env ops m).1 ops (t.runAll env ops m).2 := by
  induction ops generalizing own m with
  | nil => exact ⟨own, .refl own, h, rfl, rfl, .nil, fun _ hr => .inl hr⟩
  | cons op ops ih =>
    obtain ⟨own₁, h₁⟩ := Calm.ran hh hc h op
    obtain ⟨own₂, h₂⟩ := ih h₁.owns
    exact ⟨own₂, h₁.trans h₂⟩

end Tree

end NestedPaging
