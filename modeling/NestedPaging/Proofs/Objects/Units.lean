import NestedPaging.Proofs.Objects.MidOperation
import NestedPaging.Proofs.Unit.Invariants

/-!
# Units at work among others

Every operation on a unit leaves all objects in order, however it ends (`goes_unit`). It stores to the
registers of the unit, which lie apart from all pages that are allocated, and to slots of its queue.

* `Serving S w m u n`   an operation under way since `m`, of the unit `u`, whose queue is sound;
* `Serving.upholds`     each action on the unit keeps it under way.
-/

namespace NestedPaging

open Machine (Deed)

variable {σ : Type} [Registry σ]

/-- an operation under way since `m` of a unit that holds its own page only -/
structure Serving (S : Terms) (w : Turn σ) (m : Machine σ) (u : Remapper) (n : Machine σ) : Prop where
  object : w.object = .unit u
  underway : Underway S w m u.frames n
  sound : u.Sound n

/-- the operation goes on as it should -/
def Serves (S : Terms) (w : Turn σ) (m : Machine σ) (u : Remapper) (k n : Machine σ) : Prop :=
  Serving S w m u k → Serving S w m u n

namespace Serving
variable {S : Terms} {w : Turn σ} {m k n : Machine σ} {u : Remapper} {q : InvalidationQueue}

theorem deed (h : Serving S w m u k) (hd : Deed (Machine.Beside (Object.unit u).cells) u.frames k u.frames n)
    (hr : n.rings = k.rings) : Serving S w m u n :=
  ⟨h.object, h.underway.deed (h.object ▸ hd), h.sound.of_rings hr⟩

/-- the pointers of the queue are changed, the tail staying in the queue -/
theorem ring (h : Serving S w m u k) (hq : u.queue = some q) {f : RingState → RingState}
    (hf : (q.state k).tail < ringSlots → (f (q.state k)).tail < ringSlots) :
    Serving S w m u { k with rings := k.rings.modify q.cell f } := by
  have hcell : CellRef.ring q.cell ∈ w.object.cells := by
    rw [h.object]
    exact ⟨q, hq, rfl⟩
  refine ⟨h.object, h.underway.deed (.aside rfl rfl ⟨[], .refl rfl, nofun⟩ ⟨rfl, fun c hc => ?_, rfl,
    fun c hc => by cases c <;> exact hc, fun _ _ => id⟩), h.sound.moved hf⟩
  cases c with
  | tree i => rfl
  | space i => rfl
  | ring i =>
    refine (Cells.get_modify ..).trans (if_neg ?_)
    rintro rfl
    exact hc hcell

theorem upholds : u.Upholds (Serving S w m u) where
  sound h := h.sound
  accessed h ha := h.deed (.accessed ha) ha.rings
  noted h he := h.deed (.noteAll _ he) rfl
  register h ha := ⟨h.object, h.underway.register (by rw [h.object]; exact ha), h.sound⟩
  slot h hq ha := ⟨h.object, h.underway.deed (.store (ha ▸ ⟨_, hq, rfl⟩)), h.sound⟩
  ring h hq hf := h.ring hq hf

end Serving

/-! ## operations on units -/

section
variable {S : Terms} {env : Env σ} {m : Machine σ} {u : Remapper}

theorem goes_unit {op : Operation σ} (hop : op.object = .unit u) (h : op.Called S env m)
    (ha : Serves S (op.turn env) m u m (op.after env m)) : Goes S (some (op.turn env)) m (op.after env m) := by
  have hsound := h.order.sound _ h.mem
  have hstart : Underway S (op.turn env) m (op.object.frames m) m := h.start
  rw [hop] at hsound hstart
  have hend := ha ⟨hop, hstart, hsound⟩
  refine h.finish ?_ ?_ fun _ => Object.grows_of_none (by rw [hop]; rfl)
  · rw [hop]
    exact hend.underway
  · rw [hop]
    exact hend.sound

end

end NestedPaging
