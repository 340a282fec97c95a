import NestedPaging.Machine.Basic

/-!
# What happened on a machine

* `Machine.Logs m es n`   from `m` to `n` exactly the events `es` happened;
* `Machine.Since i e`     the event `e` happened after event number `i`;
* `Event.Plain`           the event has nothing to do with memory or with the pages in use;
* `lastLoad`              what the events say that a processor loaded last;
* `Machine.Aloof m n`     from `m` to `n` no unit takes part, and what is listed as detached was detached.

A number below the length of the earlier trace still names the same event later
(`Logs.getElem?_old`), and any other number names one of the new events (`Logs.mem_new`).
-/

namespace NestedPaging

variable {σ : Type}

/-- does the event leave memory and the pages in use as they are? -/
def Event.Plain : Event → Prop
  | .allocated .. | .freed .. | .stored .. => False
  | _ => True

namespace Machine

/-- from `m` to `n` the events `es` happened -/
def Logs (m : Machine σ) (es : List Event) (n : Machine σ) : Prop :=
  n.trace.toList = m.trace.toList ++ es

/-- the event `e` happened after event number `i` -/
def Since (m : Machine σ) (i : Nat) (e : Event) : Prop := ∃ j, i < j ∧ m.trace[j]? = some e

variable {m k n : Machine σ} {es fs : List Event} {e : Event} {i : Nat}

theorem Logs.refl (h : n.trace = m.trace) : m.Logs [] n := by
  unfold Logs
  rw [h, List.append_nil]

theorem Logs.trans (h : m.Logs es k) (h' : k.Logs fs n) : m.Logs (es ++ fs) n := by
  unfold Logs at *
  rw [h', h, List.append_assoc]

theorem Logs.inj (h : m.Logs es n) (h' : m.Logs fs n) : es = fs := List.append_cancel_left (h.symm.trans h')

theorem Logs.push (h : n.trace = m.trace.push e) : m.Logs [e] n := by
  unfold Logs
  rw [h, Array.toList_push]

theorem Logs.note (m : Machine σ) (e : Event) : m.Logs [e] (m.note e) := .push rfl

theorem Logs.size (h : m.Logs es n) : n.trace.size = m.trace.size + es.length := by
  rw [← Array.length_toList, h, List.length_append, Array.length_toList]

/-- events that happened keep their numbers -/
theorem Logs.getElem?_old (h : m.Logs es n) (hi : i < m.trace.size) :
    n.trace[i]? = m.trace[i]? := by
  rw [← Array.getElem?_toList, h, List.getElem?_append_left, Array.getElem?_toList]
  rwa [Array.length_toList]

theorem Logs.getElem?_new (h : m.Logs es n) (i : Nat) : n.trace[m.trace.size + i]? = es[i]? := by
  rw [← Array.getElem?_toList, h, List.getElem?_append_right (by simp)]
  simp

/-- an event with a later number is a new one -/
theorem Logs.mem_new (h : m.Logs es n) (hi : m.trace.size ≤ i) (he : n.trace[i]? = some e) :
    e ∈ es := by
  obtain ⟨j, rfl⟩ := Nat.exists_eq_add_of_le hi
  rw [h.getElem?_new] at he
  exact List.mem_of_getElem? he

theorem lt_size_of_getElem? (h : m.trace[i]? = some e) : i < m.trace.size :=
  (Array.getElem?_eq_some_iff.mp h).1

theorem Logs.getElem?_some (h : m.Logs es n) (he : m.trace[i]? = some e) : n.trace[i]? = some e := by
  rw [h.getElem?_old (lt_size_of_getElem? he), he]

theorem Logs.since (h : m.Logs es n) (hs : m.Since i e) : n.Since i e := by
  obtain ⟨j, hj, he⟩ := hs
  exact ⟨j, hj, h.getElem?_some he⟩

/-- a new event happened after each old one -/
theorem Logs.since_old (h : m.Logs es n) (he : e ∈ es) (hi : i < m.trace.size) : n.Since i e := by
  obtain ⟨j, hj⟩ := List.mem_iff_getElem?.mp he
  refine ⟨m.trace.size + j, by omega, ?_⟩
  rw [h.getElem?_new, hj]

theorem Since.mono {j : Nat} (h : m.Since i e) (hj : j ≤ i) : m.Since j e := by
  obtain ⟨l, hl, he⟩ := h
  exact ⟨l, by omega, he⟩

end Machine

/-! ## loads -/

/-- what `c` has loaded after an event, if it had `v` before -/
def Event.loads (k : Regime) (c : CpuId) (v : Word) : Event → Word
  | .loaded l d w => if l = k ∧ d = c then w else v
  | .forgot l d => if l = k ∧ d = c then 0 else v
  | _ => v

/-- the value that `c` loaded last, or 0 if it loaded none since it was last forgotten -/
def lastLoad (k : Regime) (c : CpuId) (es : List Event) : Word :=
  es.foldl (fun v e => e.loads k c v) 0

theorem lastLoad_append (k : Regime) (c : CpuId) (es fs : List Event) :
    lastLoad k c (es ++ fs) = fs.foldl (fun v e => e.loads k c v) (lastLoad k c es) :=
  List.foldl_append ..

/-- does the event say what a processor has loaded or what it dropped, or mark processors? -/
def Event.OfProcessors : Event → Prop
  | .loaded .. | .flushed .. | .forgot .. | .allDirty .. => True
  | _ => False

theorem foldl_loads {k : Regime} {c : CpuId} {es : List Event} (h : ∀ e ∈ es, ¬ e.OfProcessors)
    (v : Word) : es.foldl (fun v e => e.loads k c v) v = v := by
  induction es with
  | nil => rfl
  | cons e es ih =>
    have he : e.loads k c v = v := by
      have hne := h e List.mem_cons_self
      cases e with
      | loaded => exact absurd trivial hne
      | forgot => exact absurd trivial hne
      | _ => rfl
    rw [List.foldl_cons, he]
    exact ih fun e' he' => h e' (List.mem_cons_of_mem _ he')

/-! ## units and detached tables -/

/-- the request that a device acted on, if the event says so -/
def Event.request? : Event → Option (Nat × Request)
  | acted cell r => some (cell, r)
  | _ => none

namespace Machine

/-- from `m` to `n` no device is touched, no queue moves and no unit acts on anything -/
structure Quiet (m n : Machine σ) : Prop where
  devices : n.devices = m.devices
  rings : n.rings = m.rings
  logs : ∃ es, m.Logs es n ∧ ∀ e ∈ es, e.request? = none

/-- what is listed as detached in `n` was listed in `m`, or was detached since -/
def Lists (m n : Machine σ) : Prop :=
  ∃ es, m.Logs es n ∧ ∀ cell, ∀ r ∈ (n.trees.get cell).retired.toList,
    r ∈ (m.trees.get cell).retired.toList ∨ .detached cell r.table ∈ es

/-- what happens has to do with neither -/
structure Aloof (m n : Machine σ) : Prop where
  quiet : m.Quiet n
  lists : m.Lists n

variable {m k n : Machine σ} {e : Event}

namespace Quiet

theorem of_eq (hd : n.devices = m.devices) (hr : n.rings = m.rings) (ht : n.trace = m.trace) : m.Quiet n :=
  ⟨hd, hr, [], .refl ht, nofun⟩

theorem refl (m : Machine σ) : m.Quiet m := of_eq rfl rfl rfl

theorem trans (h : m.Quiet k) (h' : k.Quiet n) : m.Quiet n := by
  obtain ⟨es, he, hr⟩ := h.logs
  obtain ⟨fs, hf, hr'⟩ := h'.logs
  refine ⟨h'.devices.trans h.devices, h'.rings.trans h.rings, es ++ fs, he.trans hf, fun e hm => ?_⟩
  rcases List.mem_append.mp hm with hm | hm
  · exact hr e hm
  · exact hr' e hm

theorem push (hd : n.devices = m.devices) (hr : n.rings = m.rings) (ht : n.trace = m.trace.push e)
    (he : e.request? = none) : m.Quiet n := by
  refine ⟨hd, hr, [e], .push ht, fun e' he' => ?_⟩
  rw [List.mem_singleton.mp he']
  exact he

end Quiet

theorem Lists.trans (h : m.Lists k) (h' : k.Lists n) : m.Lists n := by
  obtain ⟨es, he, hr⟩ := h
  obtain ⟨fs, hf, hr'⟩ := h'
  refine ⟨es ++ fs, he.trans hf, fun cell r hn => ?_⟩
  rcases hr' cell r hn with hk | hd
  · exact (hr cell r hk).imp_right (List.mem_append_left fs)
  · exact .inr (List.mem_append_right es hd)

theorem Lists.of_trees {es : List Event} (he : m.Logs es n) (ht : n.trees = m.trees) : m.Lists n :=
  ⟨es, he, fun _ _ hr => .inl (ht ▸ hr)⟩

namespace Aloof

theorem trans (h : m.Aloof k) (h' : k.Aloof n) : m.Aloof n :=
  ⟨h.quiet.trans h'.quiet, h.lists.trans h'.lists⟩

theorem of_trees (h : m.Quiet n) (ht : n.trees = m.trees) : m.Aloof n := by
  obtain ⟨es, he, -⟩ := h.logs
  exact ⟨h, .of_trees he ht⟩

theorem of_eq (hd : n.devices = m.devices) (hr : n.rings = m.rings) (ht : n.trees = m.trees)
    (he : n.trace = m.trace) : m.Aloof n := of_trees (.of_eq hd hr he) ht

theorem refl (m : Machine σ) : m.Aloof m := of_eq rfl rfl rfl rfl

end Aloof

end Machine

end NestedPaging
