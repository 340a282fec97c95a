import NestedPaging.Proofs.Tree.Frame
import NestedPaging.Remap.Bus

/-!
# Accesses to the registers of a unit

An access to a device changes that device and the trace, and nothing that software keeps in memory
(`Machine.Accessed`). A read that is scripted is answered by the next word of the script
(`RegisterFile.read64_scripted`).
-/

namespace NestedPaging

variable {σ ε α : Type}

/-- does the event say what happened at the registers of a device? -/
def Event.OfUnits : Event → Prop
  | .accessed .. | .acted .. => True
  | _ => False

/-- from `m` to `n` nothing happens but accesses to devices, and what they do -/
structure Machine.Accessed (m n : Machine σ) : Prop where
  memory : n.memory = m.memory
  live : n.live = m.live
  split : n.splitExecute = m.splitExecute
  loaded : n.loaded = m.loaded
  trees : n.trees = m.trees
  spaces : n.spaces = m.spaces
  rings : n.rings = m.rings
  client : n.client = m.client
  logs : ∃ es, m.Logs es n ∧ ∀ e ∈ es, e.OfUnits

namespace Machine.Accessed
variable {m k n : Machine σ} {env : Env σ}

theorem devices (m : Machine σ) (devices : Cells Device) : m.Accessed { m with devices } :=
  ⟨rfl, rfl, rfl, rfl, rfl, rfl, rfl, rfl, [], .refl rfl, nofun⟩

theorem refl (m : Machine σ) : m.Accessed m := devices m m.devices

theorem trans (h : m.Accessed k) (h' : k.Accessed n) : m.Accessed n := by
  obtain ⟨es, he, hu⟩ := h.logs
  obtain ⟨fs, hf, hv⟩ := h'.logs
  refine ⟨h'.memory.trans h.memory, h'.live.trans h.live, h'.split.trans h.split,
    h'.loaded.trans h.loaded, h'.trees.trans h.trees, h'.spaces.trans h.spaces,
    h'.rings.trans h.rings, h'.client.trans h.client, es ++ fs, he.trans hf, fun e hm => ?_⟩
  rcases List.mem_append.mp hm with hm | hm
  · exact hu e hm
  · exact hv e hm

theorem note (m : Machine σ) {e : Event} (he : e.OfUnits) : m.Accessed (m.note e) := by
  refine ⟨rfl, rfl, rfl, rfl, rfl, rfl, rfl, rfl, [e], .note m e, fun e' he' => ?_⟩
  rw [List.mem_singleton.mp he']
  exact he

theorem notes (m : Machine σ) {α : Type} (f : α → Event) (xs : List α) (hf : ∀ x, (f x).OfUnits) :
    m.Accessed (xs.foldl (fun m x => m.note (f x)) m) := by
  induction xs generalizing m with
  | nil => exact refl m
  | cons x xs ih => exact (note m (hf x)).trans (ih _)

theorem bind {x : Act σ ε α} {β : Type} {f : α → Act σ ε β} (hx : x.Keeps Accessed env)
    (hf : ∀ a, (f a).Keeps Accessed env) : (x >>= f).Keeps Accessed env :=
  Act.Keeps.bind (R := Accessed) (fun _ _ _ => trans) hx hf

theorem view (f : Machine σ → α) : (Act.view f : Act σ ε α).Keeps Accessed env := fun m => refl m

end Machine.Accessed

open Machine (Accessed)

namespace Act
variable {env : Env σ} {m : Machine σ} {cell offset : Nat}

theorem devices_notes {α : Type} (f : α → Event) (xs : List α) (m : Machine σ) :
    (xs.foldl (fun m x => m.note (f x)) m).devices = m.devices := by
  induction xs generalizing m with
  | nil => rfl
  | cons x xs ih => exact ih (m.note (f x))

/-- the device changes by `f`, and what its unit acts on is noted -/
theorem changeDevice_ok (cell : Nat) (f : Memory → Device → Device) (env : Env σ) (m : Machine σ) :
    ∃ n, (changeDevice cell f : Act σ ε Unit) env m = .ok () n ∧ m.Accessed n ∧
      n.devices.get cell = f m.memory (m.devices.get cell) := by
  refine ⟨_, rfl, (Accessed.devices m _).trans (.notes _ _ _ fun _ => trivial), ?_⟩
  rw [devices_notes, Cells.get_modify, if_pos rfl]

theorem accessed_changeDevice (cell : Nat) (f : Memory → Device → Device) :
    (changeDevice cell f : Act σ ε Unit).Keeps Accessed env := by
  intro m
  obtain ⟨n, hn, ha, _⟩ := changeDevice_ok (ε := ε) cell f env m
  rw [after_of_ok hn]
  exact ha

theorem accessed_countAccess (cell : Nat) :
    (countAccess cell : Act σ ε Unit).Keeps Accessed env := by
  refine Accessed.bind (Accessed.view _) fun d => ?_
  match d.allowance with
  | none => exact fun m => .refl m
  | some 0 => exact fun m => .refl m
  | some (n + 1) => exact fun m => .devices m _

theorem countAccess_free (h : (m.devices.get cell).allowance = none) :
    (countAccess cell : Act σ ε Unit) env m = .ok () m := by
  unfold countAccess
  simp only [bind_apply, view_apply, h, pure_apply]

theorem accessed_readDevice (cell offset : Nat) (wide : Bool) :
    (readDevice cell offset wide : Act σ ε Word).Keeps Accessed env :=
  Accessed.bind (accessed_countAccess cell) fun _ => Accessed.bind (accessed_changeDevice cell _) fun _ =>
    Accessed.bind (Accessed.view _) fun _ => Accessed.bind (accessed_changeDevice cell _) fun _ =>
      Accessed.bind (fun m => .note m trivial) fun _ m => .refl m

end Act

namespace RegisterFile
variable {env : Env σ} {m : Machine σ} {cell offset : Nat}

theorem accessed_read32 (cell offset : Nat) :
    ((device cell).read32 offset : Act σ ε UInt32).Keeps Accessed env :=
  Accessed.bind (Act.accessed_readDevice cell offset false) fun _ m => .refl m

theorem accessed_read64 (cell offset : Nat) :
    ((device cell).read64 offset : Act σ ε Word).Keeps Accessed env :=
  Act.accessed_readDevice cell offset true

theorem accessed_write32 (cell offset : Nat) (v : UInt32) :
    ((device cell).write32 offset v : Act σ ε Unit).Keeps Accessed env :=
  Accessed.bind (Act.accessed_countAccess cell) fun _ => Accessed.bind (Accessed.view _) fun _ =>
    Accessed.bind (fun m => .note m trivial) fun _ => Act.accessed_changeDevice cell _

theorem accessed_write64 (cell offset : Nat) (v : Word) :
    ((device cell).write64 offset v : Act σ ε Unit).Keeps Accessed env :=
  Accessed.bind (Act.accessed_countAccess cell) fun _ => Accessed.bind (Accessed.view _) fun _ =>
    Accessed.bind (fun m => .note m trivial) fun _ => Act.accessed_changeDevice cell _

/-! ## units that answer without end -/

/-- a scripted read is answered by the script -/
theorem read64_scripted (env : Env σ) {w : Word} (ha : (m.devices.get cell).allowance = none)
    (hw : (m.devices.get cell).wakeAfter = none)
    (hs : (m.devices.get cell).nextAnswer? offset = some w) :
    ∃ n, ((device cell).read64 offset : Act σ ε Word) env m = .ok w n ∧ m.Accessed n ∧
      n.devices.get cell = (m.devices.get cell).dropAnswer offset := by
  have hnotice : (m.devices.get cell).noticeRead m.memory offset = m.devices.get cell := by
    unfold Device.noticeRead
    rw [hw]
    simp
  obtain ⟨k, hk, hmk, hd⟩ := Act.changeDevice_ok (ε := ε) cell
    (fun memory d => d.noticeRead memory offset) env m
  obtain ⟨n, hn, hkn, hd'⟩ := Act.changeDevice_ok (ε := ε) cell (fun _ d => d.dropAnswer offset) env k
  rw [hnotice] at hd
  rw [hd] at hd'
  refine ⟨n.note (.accessed cell (m.devices.get cell).label ⟨true, false, offset, w⟩), ?_,
    (hmk.trans hkn).trans (.note n (e := .accessed ..) trivial), hd'⟩
  show (Act.readDevice cell offset true : Act σ ε Word) env m = _
  unfold Act.readDevice
  simp only [Act.bind_apply, Act.countAccess_free ha, hk, Act.view_apply, hd, hs, hn, if_true,
    Act.pure_apply]
  rfl

/-- a write reaches the unit, whatever is scripted -/
theorem write64_device (env : Env σ) (ha : (m.devices.get cell).allowance = none) (offset : Nat) (v : Word) :
    ∃ n, ((device cell).write64 offset v : Act σ ε Unit) env m = .ok () n ∧ m.Accessed n ∧
      n.devices.get cell = { m.devices.get cell with
        unit := (m.devices.get cell).unit.write64 m.memory offset v } := by
  obtain ⟨n, hn, hmn, hd⟩ := Act.changeDevice_ok (ε := ε) cell
    (fun memory d => { d with unit := d.unit.write64 memory offset v }) env
    (m.note (.accessed cell (m.devices.get cell).label ⟨true, true, offset, v⟩))
  refine ⟨n, ?_, (Accessed.note m (e := .accessed ..) trivial).trans hmn, hd⟩
  unfold write64
  simp only [Act.bind_apply, Act.countAccess_free ha, Act.view_apply]
  exact hn

end RegisterFile

end NestedPaging
