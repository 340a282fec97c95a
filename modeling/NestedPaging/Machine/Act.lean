import NestedPaging.Machine.Basic

/-!
# Actions

An action of one processor changes the machine and ends with a result or with a `Stop`: an error
of its own, an argument that the operation is not defined for, or a wait that never ends. What was
done before a stop stays done.
-/

namespace NestedPaging

/-- why an action ended without a result -/
inductive Stop (ε : Type) where
  | failed (e : ε)
  /-- an argument outside what the operation is defined for -/
  | refused
  /-- a wait that never ends -/
  | stuck
  deriving DecidableEq

def Stop.map {ε δ : Type} (f : ε → δ) : Stop ε → Stop δ
  | failed e => failed (f e)
  | refused => refused
  | stuck => stuck

abbrev Act (σ ε : Type) := ReaderT (Env σ) (EStateM (Stop ε) (Machine σ))

namespace Act
variable {σ ε δ α : Type}

def fail (e : ε) : Act σ ε α := throw (.failed e)

def refuse : Act σ ε α := throw .refused

def stuck : Act σ ε α := throw .stuck

/-- `f` of the machine -/
def view (f : Machine σ → α) : Act σ ε α := fun _ m => .ok (f m) m

def change (f : Machine σ → Machine σ) : Act σ ε Unit := fun _ m => .ok () (f m)

def note (e : Event) : Act σ ε Unit := change (·.note e)

def log (level : LogLevel) (line : String) : Act σ ε Unit := note (.logged level line)

/-- run `body`, then change the machine by `after`, however `body` ends -/
def ensuring (after : Machine σ → Machine σ) (body : Act σ ε α) : Act σ ε α := fun env m =>
  match body env m with
  | .ok a m => .ok a (after m)
  | .error e m => .error e (after m)

/-- say an error in the words of the caller -/
def mapError (f : ε → δ) (body : Act σ ε α) : Act σ δ α := fun env m =>
  match body env m with
  | .ok a m => .ok a m
  | .error e m => .error (e.map f) m

/-- run `body`, then `undo` if it ended without a result -/
def orUndo (undo : Machine σ → Machine σ) (body : Act σ ε α) : Act σ ε α := fun env m =>
  match body env m with
  | .ok a m => .ok a m
  | .error e m => .error e (undo m)

/-- run `body`, and if it ended without a result also `cleanup`, before it stops -/
def orElseRun (body : Act σ ε α) (cleanup : Act σ ε Unit) : Act σ ε α := fun env m =>
  match body env m with
  | .ok a m => .ok a m
  | .error e m =>
    match cleanup env m with
    | .ok _ m => .error e m
    | .error _ m => .error e m

def ofExcept : Except ε α → Act σ ε α
  | .ok a => pure a
  | .error e => fail e

/-- take a page whose words are `fill`, if there is one -/
def allocPage (fill : Word) : Act σ ε (Option PhysAddr) := fun env m =>
  match env.supply m with
  | (m, some p) => .ok (some p) (m.take p fill)
  | (m, none) => .ok none (m.note .exhausted)

/-- take a page or fail with `e` -/
def allocOr (e : ε) (fill : Word) : Act σ ε PhysAddr := do
  match ← allocPage fill with
  | some p => pure p
  | none => fail e

def freePage (p : PhysAddr) : Act σ ε Unit := change (·.giveBack p)

def load (a : PhysAddr) : Act σ ε Word := view (·.memory.read a)

def store (a : PhysAddr) (w : Word) : Act σ ε Unit := change (·.store a w)

/-- store `w`; the result is what was there -/
def swap (a : PhysAddr) (w : Word) : Act σ ε Word := do
  let old ← load a
  store a w
  pure old

/-- store `new` if the word is still `old`; the result is what was there -/
def publish (a : PhysAddr) (old new : Word) : Act σ ε Word := do
  let found ← load a
  if found = old then store a new
  pure found

/-- repeat `ask` until `done`, at most `tries` times -/
def pollFor (ask : Act σ ε α) (done : α → Bool) : Nat → Act σ ε α
  | 0 => stuck
  | tries + 1 => do
    let a ← ask
    if done a then pure a else pollFor ask done tries

/-- run `body` with as many tries as the environment has patience for -/
def withPatience (body : Nat → Act σ ε α) : Act σ ε α := fun env m => body env.patience env m

/-- repeat `ask`, which reads a register, until `done` -/
def poll (ask : Act σ ε α) (done : α → Bool) : Act σ ε α := withPatience (pollFor ask done)

/-! ## what actions do to a machine -/

section
variable {β : Type} (env : Env σ) (m : Machine σ)

@[simp] theorem pure_apply (a : α) : (pure a : Act σ ε α) env m = .ok a m := rfl

@[simp] theorem bind_apply (x : Act σ ε α) (f : α → Act σ ε β) :
    (x >>= f) env m = match x env m with
      | .ok a m => f a env m
      | .error e m => .error e m := by
  change EStateM.bind _ _ m = _
  unfold EStateM.bind
  cases x env m <;> rfl

theorem bind_eq_ok (x : Act σ ε α) (f : α → Act σ ε β) (b : β) (n : Machine σ) :
    (x >>= f) env m = .ok b n ↔ ∃ a k, x env m = .ok a k ∧ f a env k = .ok b n := by
  rw [bind_apply]
  cases x env m <;> simp [and_assoc]

/-- a list is gone through element by element -/
theorem forM_cons_ok {env : Env σ} {m k n : Machine σ} {f : β → Act σ ε Unit} {b : β} {bs : List β}
    (hb : f b env m = .ok () k) (hbs : (bs.forM f) env k = .ok () n) : ((b :: bs).forM f) env m = .ok () n := by
  show (f b >>= fun _ => bs.forM f) env m = _
  rw [bind_apply, hb]
  exact hbs

@[simp] theorem map_apply (x : Act σ ε α) (f : α → β) :
    (f <$> x) env m = match x env m with
      | .ok a m => .ok (f a) m
      | .error e m => .error e m := by
  change EStateM.map _ _ m = _
  unfold EStateM.map
  cases x env m <;> rfl

/-- a register that is done already is read once -/
theorem poll_ok {env : Env σ} {m n : Machine σ} {ask : Act σ ε α} {done : α → Bool} {a : α} (hp : 0 < env.patience)
    (ha : ask env m = .ok a n) (hd : done a = true) : poll ask done env m = .ok a n := by
  obtain ⟨tries, htries⟩ := Nat.exists_eq_succ_of_ne_zero (Nat.ne_of_gt hp)
  unfold poll withPatience
  rw [htries]
  unfold pollFor
  rw [bind_apply, ha]
  simp only [hd, if_true, pure_apply]

@[simp] theorem fail_apply (e : ε) : (fail e : Act σ ε α) env m = .error (.failed e) m := rfl

@[simp] theorem refuse_apply : (refuse : Act σ ε α) env m = .error .refused m := rfl

@[simp] theorem stuck_apply : (stuck : Act σ ε α) env m = .error .stuck m := rfl

@[simp] theorem view_apply (f : Machine σ → α) : (view f : Act σ ε α) env m = .ok (f m) m := rfl

@[simp] theorem change_apply (f : Machine σ → Machine σ) :
    (change f : Act σ ε Unit) env m = .ok () (f m) := rfl

@[simp] theorem load_apply (a : PhysAddr) :
    (load a : Act σ ε Word) env m = .ok (m.memory.read a) m := rfl

@[simp] theorem store_apply (a : PhysAddr) (w : Word) :
    (store a w : Act σ ε Unit) env m = .ok () (m.store a w) := rfl

@[simp] theorem swap_apply (a : PhysAddr) (w : Word) :
    (swap a w : Act σ ε Word) env m = .ok (m.memory.read a) (m.store a w) := rfl

@[simp] theorem publish_apply (a : PhysAddr) (old new : Word) :
    (publish a old new : Act σ ε Word) env m =
      .ok (m.memory.read a) (if m.memory.read a = old then m.store a new else m) := by
  simp only [publish, bind_apply, load_apply]
  split <;> rfl

end

end Act

/-! ## cleaning caches

Structures that a unit reads with DMA are cleaned to memory, since the unit may not snoop
processor caches. A `Cleaner` either hands the request to the platform or walks the lines of the
processor's own cache.
-/

/-- the lines of `size` bytes from `line` up that start below `stop` -/
def linesFrom (size stop line : Nat) : List Nat :=
  if _h : line < stop ∧ 0 < size then line :: linesFrom size stop (line + size) else []
termination_by stop - line

/-- the lines that the processor visits to clean `len` bytes from `a` up -/
def visitedLines (size : Nat) (a : PhysAddr) (len : Nat) : List Nat :=
  linesFrom size (a.bits.toNat + len) (a.bits &&& ~~~(size.toUInt64 - 1)).toNat

inductive Cleaner where
  /-- the platform's cache maintenance -/
  | platform
  /-- the executing processor's cache, in lines of `size` bytes -/
  | lines (size : Nat)
  deriving DecidableEq

namespace Cleaner

/-- the smallest line of any supported processor, for use before the caches are enumerated -/
def conservative : Cleaner := lines 32

/-- the bytes of a line -/
def lineSize : Cleaner → Nat
  | platform => 64
  | lines size => size

end Cleaner

namespace Act
variable {σ ε : Type}

/-- write `len` bytes from `a` up back to memory -/
def clean (c : Cleaner) (a : PhysAddr) (len : Nat) : Act σ ε Unit :=
  match c with
  | .platform => change fun m =>
    m.note (.cleaned a len (.ofWords len (m.memory.words a (len / 8))))
  | .lines size => change fun m =>
    (visitedLines size a len).foldl (fun m line => m.note (.lineCleaned line size)) m

end Act

end NestedPaging
