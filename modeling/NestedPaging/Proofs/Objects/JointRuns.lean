import NestedPaging.Proofs.Space.PageBalance
import NestedPaging.Proofs.Objects.Basic

/-!
# Joint runs

Any number of objects are created, operated on and dropped. Whenever an operation asks for a page, and
while a sync or a destruction waits for flushes, others act on the same objects in turn.

* `Joint S c m n`     a run from `m` to `n` under the terms `S`, or one operation of it;
* `Story c H m H' n`  such a run told access by access: each is an access of one object to a page that
                      it holds at that moment, and `H` says who holds what;
* `Machine.held`      who holds what between operations.

`Story.elsewhere` and `Story.frame` are the frame rules: a page that nobody holds stays as it is, so an
object may as well hold it meanwhile.
-/

namespace NestedPaging

open Function (update)
open Machine (Deed Deeds)

variable {σ : Type}

/-- whoever runs the machine knows which objects there are -/
class Registry (σ : Type) where
  objects : σ → Set Object
  /-- the pages set apart for registers -/
  reserved : Set Nat

/-- the objects that there are -/
def Machine.objects [Registry σ] (m : Machine σ) : Set Object := Registry.objects m.client

/-! ## what is done to objects -/

/-- the operations on an object -/
inductive Operation (σ : Type) where
  | tree (t : Tree) (op : TreeOp)
  | reclaim (t : Tree)
  | space (s : Space) (op : SpaceOp)
  | sync (s : Space) (d : Shootdown σ)
  | destroy (s : Space) (d : Shootdown σ)
  | attach (t : ContextTables) (r : RequesterId) (a : Attachment)
  | detach (t : ContextTables) (r : RequesterId)
  | route (t : InterruptTable) (i : Nat) (r : InterruptRoute)
  | entry (t : InterruptTable) (i : Nat)
  | start (u : Remapper) (root : PhysAddr) (interrupts : Option Word) (event : Option FaultEvent)
  | command (u : Remapper) (bit : UInt32)
  | invalidate (u : Remapper) (s : Scope) (domain : UInt16)
  | invalidateInterrupts (u : Remapper) (remapping : Bool)
  | handleFaults (u : Remapper)

namespace Operation

def object : Operation σ → Object
  | tree t _ | reclaim t => .tree t
  | space s _ | sync s _ | destroy s _ => .space s
  | attach t _ _ | detach t _ => .contexts t
  | route t _ _ | entry t _ => .interrupts t
  | start u _ _ _ | command u _ | invalidate u _ _ | invalidateInterrupts u _ | handleFaults u => .unit u

/-- is it an operation that frees detached tables? -/
def Reclaims : Operation σ → Prop
  | reclaim _ | sync _ _ | destroy _ _ => True
  | _ => False

/-- will it free any? A space that is not active refuses, and while operations on it are in flight, its
destruction waits. -/
def Frees (m : Machine σ) : Operation σ → Prop
  | reclaim _ => True
  | sync s _ => (s.state m).phase = .active
  | destroy s _ => (s.state m).phase = .active ∧ (s.state m).inFlight = 0
  | _ => False

/-- what others do when the operation lets them -/
def others (env : Env σ) : Operation σ → Machine σ → Machine σ
  | sync _ d | destroy _ d => d.before
  | _ => fun m => (env.supply m).1

/-- the machine after the operation, however it ends -/
def after (env : Env σ) (m : Machine σ) : Operation σ → Machine σ
  | tree t op => (t.perform op).after env m
  | reclaim t => (t.reclaim : Act σ TableError Unit).after env m
  | space s op => (s.perform op).after env m
  | sync s d => (s.sync d).after env m
  | destroy s d => (s.destroy d).after env m
  | attach t r a => (t.attach r a).after env m
  | detach t r => (t.detach r : Act σ RemapError Unit).after env m
  | route t i r => (t.set i r : Act σ RemapError Unit).after env m
  | entry t i => (t.entry i : Act σ RemapError EntryWords).after env m
  | start u root interrupts event => (u.start root interrupts event).after env m
  | command u bit => (u.command bit : Act σ RemapError Unit).after env m
  | invalidate u s domain => (u.invalidate s domain).after env m
  | invalidateInterrupts u remapping => (u.invalidateInterrupts remapping).after env m
  | handleFaults u => (u.handleFaults : Act σ RemapError Nat).after env m

end Operation

/-- the ways to create an object -/
inductive Creation where
  | tree (f : Format) (cleaner : Option Cleaner)
  | space (k : Regime) (cleaner : Option Cleaner) (tag : RegimeTag)
  | contexts (cleaner : Cleaner)
  | interrupts (cleaner : Cleaner)
  | unit (base : Word) (registers : RegisterFile) (queued : Bool) (cleaner : Cleaner)

namespace Creation

/-- the object that a creation ends with, if it ends well -/
def made {α ε : Type} (f : α → Object) :
    EStateM.Result (Stop ε) (Machine σ) α → Option Object × Machine σ
  | .ok a n => (some (f a), n)
  | .error _ n => (none, n)

def run (env : Env σ) (m : Machine σ) : Creation → Option Object × Machine σ
  | tree f cleaner => made .tree (Tree.create f cleaner env m)
  | space k cleaner tag => made .space (Space.create k cleaner tag env m)
  | contexts cleaner => made .contexts (ContextTables.create cleaner env m)
  | interrupts cleaner => made .interrupts (InterruptTable.create cleaner env m)
  | unit base registers queued cleaner => made .unit (Remapper.create base registers queued cleaner env m)

end Creation

/-- give back what the object holds -/
def Object.drop (env : Env σ) (m : Machine σ) : Object → Machine σ
  | tree t => (t.release : Act σ TableError Unit).after env m
  | space s => (s.tree.release : Act σ TableError Unit).after env m
  | contexts t => (t.drop : Act σ RemapError Unit).after env m
  | interrupts t => (t.drop : Act σ RemapError Unit).after env m
  | unit u => (u.drop : Act σ RemapError Unit).after env m

/-! ## runs -/

/-- what a run may do -/
structure Terms where
  /-- it may act on these objects -/
  acts : Set Object
  /-- these are in use, so they are not dropped -/
  used : Set Object := ∅
  /-- updates of these are under way, so that nothing is reclaimed either -/
  busy : Set Object := ∅

/-- the terms for others while the operation waits for them -/
def Terms.during (S : Terms) (op : Operation σ) : Terms :=
  { S with
    used := insert op.object S.used
    busy := {o | o ∈ S.busy ∨ o = op.object ∧ ¬ op.Reclaims} }

/-- one operation: the object, and what others do meanwhile -/
structure Turn (σ : Type) where
  object : Object
  others : Machine σ → Machine σ

/-- an operation that lets others run as often as the environment says -/
def Operation.turn (env : Env σ) (op : Operation σ) : Turn σ := ⟨op.object, op.others env⟩

/-- runs of many objects, and single operations of them -/
inductive Joint [Registry σ] : Terms → Option (Turn σ) → Machine σ → Machine σ → Prop
  | refl {S : Terms} (m : Machine σ) : Joint S none m m
  | trans {S : Terms} {m k n : Machine σ} : Joint S none m k → Joint S none k n → Joint S none m n
  | turn {S : Terms} {w : Turn σ} {m n : Machine σ} : Joint S (some w) m n → Joint S none m n
  /-- whoever runs the machine takes a note -/
  | client {S : Terms} (m : Machine σ) {client : σ} : Registry.objects client = m.objects →
      Joint S none m { m with client }
  /-- an operation, however it ends -/
  | call {S : Terms} (op : Operation σ) {env : Env σ} (m : Machine σ) : op.object ∈ m.objects →
      op.object ∈ S.acts → (op.Frees m → op.object ∉ S.busy) → env.Honest →
      (∀ j, Joint (S.during op) none j (op.others env j)) →
      Joint S (some (op.turn env)) m (op.after env m)
  | create {S : Terms} (c : Creation) {env : Env σ} (m : Machine σ) {o : Object} {n : Machine σ}
      {client : σ} : env.Honest → (∀ j, Joint S none j (env.supply j).1) →
      c.run env m = (some o, n) → o.window ⊆ Registry.reserved σ →
      Registry.objects client = insert o n.objects →
      Joint S (some ⟨o, fun j => (env.supply j).1⟩) m { n with client }
  /-- a creation that fails -/
  | fail {S : Terms} (c : Creation) {env : Env σ} (m : Machine σ) {n : Machine σ} : env.Honest →
      (∀ j, Joint S none j (env.supply j).1) → c.run env m = (none, n) → Joint S none m n
  | drop {S : Terms} (o : Object) (env : Env σ) (m : Machine σ) {client : σ} : o ∈ m.objects →
      o ∈ S.acts → o ∉ S.used → o ∉ S.busy → Registry.objects client = m.objects \ {o} →
      Joint S (some ⟨o, id⟩) m { o.drop env m with client }
  /-- a run may do less than it might -/
  | within {S S' : Terms} {c : Option (Turn σ)} {m n : Machine σ} : S'.acts ⊆ S.acts → S.used ⊆ S'.used →
      S.busy ⊆ S'.busy → Joint S' c m n → Joint S c m n

/-! ## stories -/

/-- who holds which pages -/
abbrev Holdings := Object → Set Nat

/-- the pages that are held are in use, each is held once, and none has registers -/
structure Holdings.Apart [Registry σ] (H : Holdings) (m : Machine σ) : Prop where
  live : ∀ b, ∀ i ∈ H b, i ∈ m.live
  once : ∀ b b' i, i ∈ H b → i ∈ H b' → b = b'
  reserve : ∀ b, ∀ i ∈ H b, i ∉ Registry.reserved σ

/-- between operations each object holds its own pages -/
def Machine.held [Registry σ] (m : Machine σ) : Holdings := fun o => {i | o ∈ m.objects ∧ i ∈ o.frames m}

/-- the objects that are not in `D` stay, and give the same answers -/
def Machine.SameOutside [Registry σ] (D : Set Object) (m n : Machine σ) : Prop :=
  ∀ b ∈ m.objects, b ∉ D → b ∈ n.objects ∧ b.Same m n

/-- what happens from `m` to `n`, access by access, where `H` says who holds which pages -/
inductive Story [Registry σ] : Option (Turn σ) → Holdings → Machine σ → Holdings → Machine σ → Prop
  | refl {c : Option (Turn σ)} {H : Holdings} {m : Machine σ} : Story c H m H m
  | trans {c : Option (Turn σ)} {H H' H'' : Holdings} {m k n : Machine σ} : Story c H m H' k →
      Story c H' k H'' n → Story c H m H'' n
  /-- an access of an operation to what its object holds -/
  | deed {w : Turn σ} {H : Holdings} {F : Set Nat} {m n : Machine σ} : H.Apart m →
      Deed (Machine.Beside w.object.cells) (H w.object) m F n → m.SameOutside {w.object} n →
      Story (some w) H m (update H w.object F) n
  /-- a store to a register of the object -/
  | register {w : Turn σ} {H : Holdings} {m : Machine σ} {a : PhysAddr} {v : Word} : H.Apart m →
      a.frame ∈ w.object.window → w.object.window ⊆ Registry.reserved σ →
      m.SameOutside {w.object} (m.store a v) → Story (some w) H m H (m.store a v)
  /-- pages that are left alone from now on, and stay allocated -/
  | leave {w : Turn σ} {H : Holdings} {F : Set Nat} {m : Machine σ} : F ⊆ H w.object →
      Story (some w) H m (update H w.object F) m
  /-- the operation lets others run -/
  | others {w : Turn σ} {H H' : Holdings} {m : Machine σ} : Story none H m H' (w.others m) →
      Story (some w) H m H' (w.others m)
  /-- one operation of a run -/
  | turn {S : Terms} {w : Turn σ} {H H' : Holdings} {m n : Machine σ} : Joint S (some w) m n →
      m.SameOutside S.acts n → Story (some w) H m H' n → Story none H m H' n
  | client {c : Option (Turn σ)} {H : Holdings} {m : Machine σ} (client : σ) :
      Story c H m H { m with client }
  /-- nothing of any object is accessed -/
  | idle {c : Option (Turn σ)} {H : Holdings} {m n : Machine σ} : Deed (Machine.Beside ∅) ∅ m ∅ n →
      Story c H m H n

namespace Story
variable [Registry σ] {c : Option (Turn σ)} {w : Turn σ} {H H' : Holdings} {m n : Machine σ} {i : Nat}
  {o : Object} {K : Set Nat}

theorem onward (h : Story c H m H' n) : m.Onward n := by
  induction h with
  | refl => exact .of_cells rfl rfl rfl rfl
  | trans _ _ ih ih' => exact ih.trans ih'
  | deed _ hd _ => exact (Machine.Beside.of_deed hd).onward
  | others _ ih => exact ih
  | turn _ _ _ ih => exact ih
  | idle hd => exact (Machine.Beside.of_deed hd).onward
  | register => exact .of_cells rfl rfl rfl rfl
  | leave => exact .of_cells rfl rfl rfl rfl
  | client => exact .of_cells rfl rfl rfl rfl

/-- a page that is in use, that nobody holds, and that has no registers -/
def Idle (H : Holdings) (m : Machine σ) (i : Nat) : Prop :=
  i ∈ m.live ∧ i ∉ Registry.reserved σ ∧ ∀ o, i ∉ H o

/-- what nobody holds stays as it is -/
theorem elsewhere (h : Story c H m H' n) (hi : Idle H m i) :
    Idle H' n i ∧ ∀ a : PhysAddr, a.frame = i → n.memory.read a = m.memory.read a := by
  induction h with
  | refl => exact ⟨hi, fun _ _ => rfl⟩
  | trans _ _ ih ih' =>
    obtain ⟨hk, hread⟩ := ih hi
    obtain ⟨hn, hread'⟩ := ih' hk
    exact ⟨hn, fun a ha => (hread' a ha).trans (hread a ha)⟩
  | @deed w H F m n _ hd _ =>
    obtain ⟨he, hread⟩ := hd.elsewhere ⟨hi.1, hi.2.2 w.object⟩
    refine ⟨⟨he.1, hi.2.1, fun o => ?_⟩, hread⟩
    by_cases ho : o = w.object
    · rw [ho, Function.update_self]
      exact he.2
    · rw [Function.update_of_ne ho]
      exact hi.2.2 o
  | @register w H m a v _ ha hw _ =>
    refine ⟨hi, fun b hb => Memory.read_write_other (fun hs => hi.2.1 (hw ?_)) m.memory v⟩
    rw [← hb, ← hs.1]
    exact ha
  | @leave w H F m hF =>
    refine ⟨⟨hi.1, hi.2.1, fun o ho => ?_⟩, fun _ _ => rfl⟩
    by_cases he : o = w.object
    · rw [he, Function.update_self] at ho
      exact hi.2.2 _ (hF ho)
    · rw [Function.update_of_ne he] at ho
      exact hi.2.2 o ho
  | others _ ih => exact ih hi
  | turn _ _ _ ih => exact ih hi
  | client => exact ⟨hi, fun _ _ => rfl⟩
  | idle hd =>
    obtain ⟨he, hread⟩ := hd.elsewhere ⟨hi.1, Set.notMem_empty i⟩
    exact ⟨⟨he.1, hi.2⟩, hread⟩

end Story

/-- the object `o` holds the pages `K` as well -/
def Holdings.with (H : Holdings) (o : Object) (K : Set Nat) : Holdings := update H o (H o ∪ K)

theorem Holdings.with_update (H : Holdings) {o b : Object} (F K : Set Nat) :
    Holdings.with (update H b F) o K
      = update (H.with o K) b (if b = o then F ∪ K else F) := by
  unfold Holdings.with
  by_cases hb : b = o
  · subst hb
    rw [Function.update_self, Function.update_idem, Function.update_idem, if_pos rfl]
  · rw [Function.update_of_ne (Ne.symm hb), if_neg hb, Function.update_comm hb]

theorem Holdings.with_apply (H : Holdings) (o b : Object) (K : Set Nat) :
    H.with o K b = if b = o then H b ∪ K else H b := by
  unfold Holdings.with
  by_cases hb : b = o
  · subst hb
    rw [Function.update_self, if_pos rfl]
  · rw [Function.update_of_ne hb, if_neg hb]

theorem Holdings.Apart.with [Registry σ] {H : Holdings} {m : Machine σ} {o : Object} {K : Set Nat}
    (h : H.Apart m) (hK : ∀ i ∈ K, Story.Idle H m i) : (H.with o K).Apart m := by
  have hmem : ∀ {b i}, i ∈ H.with o K b → i ∈ H b ∨ b = o ∧ i ∈ K := by
    intro b i hi
    rw [H.with_apply] at hi
    split at hi
    · rename_i he
      exact hi.imp id fun hi => ⟨he, hi⟩
    · exact .inl hi
  refine ⟨fun b i hi => ?_, fun b b' i hi hi' => ?_, fun b i hi => ?_⟩
  · rcases hmem hi with hi | ⟨_, hi⟩
    · exact h.live b i hi
    · exact (hK i hi).1
  · rcases hmem hi with hb | ⟨he, hiK⟩
    · rcases hmem hi' with hb' | ⟨_, hiK⟩
      · exact h.once b b' i hb hb'
      · exact absurd hb ((hK i hiK).2.2 b)
    · rcases hmem hi' with hb' | ⟨he', _⟩
      · exact absurd hb' ((hK i hiK).2.2 b')
      · exact he.trans he'.symm
  · rcases hmem hi with hi | ⟨_, hi⟩
    · exact h.reserve b i hi
    · exact (hK i hi).2.1

/-- an object may hold what nobody holds -/
theorem Story.frame [Registry σ] {c : Option (Turn σ)} {H H' : Holdings} {m n : Machine σ} {o : Object}
    {K : Set Nat} (h : Story c H m H' n) (hK : ∀ i ∈ K, Idle H m i) :
    Story c (H.with o K) m (H'.with o K) n := by
  induction h with
  | refl => exact .refl
  | trans h _ ih ih' => exact .trans (ih hK) (ih' fun i hi => (h.elsewhere (hK i hi)).1)
  | @deed w H F m n ha hd hs =>
    rw [H.with_update]
    refine .deed (ha.with hK) ?_ hs
    rw [H.with_apply]
    split
    · exact hd.frame fun i hi => ⟨(hK i hi).1, (hK i hi).2.2 w.object⟩
    · exact hd
  | register h ha hw hs => exact .register (h.with hK) ha hw hs
  | @leave w H F m hF =>
    rw [H.with_update]
    refine .leave ?_
    rw [H.with_apply]
    split
    · exact Set.union_subset_union_left K hF
    · exact hF
  | others _ ih => exact .others (ih hK)
  | turn hj hs _ ih => exact .turn hj hs (ih hK)
  | client client => exact .client client
  | idle hd => exact .idle hd

end NestedPaging
