import NestedPaging.Bench.Command

/-!
# Replies of the bench

A reply holds the value that a command gave, as a value of the library. `PageDump` is the exception:
it lists the words of a page by runs of a constant stride.
-/

namespace NestedPaging.Bench

/-- words that follow each other with a constant difference, none of them zero -/
structure Run where
  index : Nat
  count : Nat
  first : Word
  stride : Word
  deriving DecidableEq

/-- extend a run that ends with `last` -/
def Run.extend (r : Run) (last : Word) : List Word → Run × List Word
  | [] => (r, [])
  | w :: ws =>
    if w != 0 && w == last + r.stride then Run.extend { r with count := r.count + 1 } w ws
    else (r, w :: ws)

/-- the run that starts with `w`, word `i`, and what follows it -/
def Run.startingAt (i : Nat) (w : Word) : List Word → Run × List Word
  | [] => (⟨i, 1, w, 0⟩, [])
  | next :: ws =>
    if next = 0 then (⟨i, 1, w, 0⟩, next :: ws) else Run.extend ⟨i, 1, w, next - w⟩ w (next :: ws)

/-- cut the words from the `i`-th up into runs; each run takes at least one of `fuel` words -/
def Run.ofWordsFrom : Nat → Nat → List Word → List Run
  | 0, _, _ => []
  | _, _, [] => []
  | fuel + 1, i, w :: ws =>
    if w = 0 then Run.ofWordsFrom fuel (i + 1) ws
    else
      let (run, rest) := Run.startingAt i w ws
      run :: Run.ofWordsFrom fuel (i + run.count) rest

/-- cut words into runs from left to right, passing over zeros -/
def Run.ofWords (ws : List Word) : List Run := Run.ofWordsFrom ws.length 0 ws

structure PageDump where
  page : PhysAddr
  runs : List Run

/-- the page at `a` as runs -/
def PageDump.ofMemory (memory : Memory) (a : PhysAddr) : PageDump :=
  ⟨a, Run.ofWords (memory.page a.frame).toList⟩

inductive Reply (α : Type) where
  | ready (a : α)
  | done
  /-- there is none -/
  | nothing
  | flag (b : Bool)
  | count (n : Nat)
  | word (w : Word)
  /-- an argument that the operation is not defined for -/
  | refused
  /-- a wait that never ends -/
  | stuck
  | noSuchObject
  | failed (kind message : String)
  | usage (live total : Nat)
  | dump (pages : List PageDump)
  | page (d : PageDump)
  | block (handle : Nat) (ones : Bool)
  | pool (p : Pool)
  | lineSize (n : Nat)
  | members (s : CpuSet)
  | cpus (s : CpuSet)
  | tally (t : Tally)
  | encoded (f : Format) (level : Nat) (raw : Word)
  | leaf (a : GuestAddr) (l : Option Leaf)
  | entry (f : Format) (level : Nat) (raw : Word)
  | covered (order : Nat)
  /-- a result, and how many tables wait to be freed after it -/
  | retiring (r : Reply α) (retired : Nat)
  /-- a result, and what the shootdown did -/
  | flushing (r : Reply α) (rounds flushed : Nat)
  | space (phase : Phase) (tag : RegimeTag) (root : PhysAddr)
  | attachment (a : Attachment)
  | pointers (r : RingState)
  | slot (d : Descriptor) (a : PhysAddr)
  | words (w : EntryWords)
  | interrupts (t : InterruptTable)
  | unit (u : Remapper)
  | pageUnit (u : Remapper) (version : UInt32) (tail : Word)
  | device (u : Emulated)
  | platform (p : Platform)
  | stage (s : SecondStage) (split : Bool)

end NestedPaging.Bench
