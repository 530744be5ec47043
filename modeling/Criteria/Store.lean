import Criteria.Store.Raw

/-!
# The store of member lists

The members of combined nodes, each list once. A list that is handed in gets the next free number
unless an equal list is still there; numbers are never used again, so a sweep leaves a gap that
tells a list that was swept away from one that never was. One list may serve an AND and an OR.

A store is coherent tables: `Store.Raw` says what they hold and what is done to them, and here each
operation is taken over with the proof that it keeps them in step. Whatever only reads a store reads
its tables.
-/

namespace Criteria

/-- Member lists under their numbers. -/
structure Store extends Store.Raw where
  coherent : toRaw.Coherent

namespace Store

/-- How many lists a store holds before an automatic sweep, unless told otherwise. -/
def defaultThreshold : Nat := 10000

/-- No lists. -/
def empty (threshold : Nat) : Store := ⟨.empty threshold, Raw.coherent_empty threshold⟩

instance : Inhabited Store := ⟨empty defaultThreshold⟩

@[simp] theorem list?_empty (threshold id : Nat) : (empty threshold).list? id = none :=
  Raw.list?_empty threshold id

/-- Stores with the same tables are the same. -/
theorem eq_of_toRaw {s t : Store} (h : s.toRaw = t.toRaw) : s = t := by
  cases s
  cases h
  rfl

theorem find?_eq_some_iff (s : Store) (l : List Node) (id : Nat) :
    s.find? l = some id ↔ s.list? id = some l :=
  s.coherent.find?_iff l id

/-- Issues the next number for a list that is not there. -/
def push (s : Store) (l : List Node) (new : s.find? l = none) : Store :=
  ⟨s.toRaw.push l, s.coherent.push new⟩

/-- The number of a list: its old one if the list is there, else the next. A fault leaves the tables
as they were (`Raw.register_eq_error`). -/
def register (s : Store) (l : List Node) : Except Fault (Nat × Store) :=
  match eq : Raw.register l s.toRaw with
  | .ok id r => .ok (id, ⟨r, s.coherent.register eq⟩)
  | .error fault _ => .error fault

/-- A list is registered with a store as it is with its tables. -/
theorem register_eq_ok_iff {s t : Store} {l : List Node} {id : Nat} :
    s.register l = .ok (id, t) ↔ Raw.register l s.toRaw = .ok id t.toRaw := by
  constructor
  · intro h
    unfold register at h
    split at h
    · next eq =>
      cases h
      exact eq
    · cases h
  · intro h
    unfold register
    split
    · next eq =>
      cases eq.symm.trans h
      rfl
    · next eq => cases eq.symm.trans h

theorem register_eq_error_iff {s : Store} {l : List Node} {fault : Fault} :
    s.register l = .error fault ↔ Raw.register l s.toRaw = .error fault s.toRaw := by
  constructor
  · intro h
    unfold register at h
    split at h
    · cases h
    · next eq =>
      cases h
      obtain ⟨rfl, -⟩ := Raw.register_eq_error eq
      exact eq
  · intro h
    unfold register
    split
    · next eq => cases eq.symm.trans h
    · next eq =>
      cases eq.symm.trans h
      rfl

/-- The members of a combined node. -/
def members (s : Store) (n : Node) : Except Fault (List Node) := do
  s.lookup (← n.listNumber)

/-- Drops every list that cannot be reached from the roots, and tells how many. -/
def sweep (s : Store) (roots : List Node) : Nat × Store :=
  let x := s.toRaw.sweep roots
  (x.1, ⟨x.2, s.coherent.sweep roots⟩)

/-- Sweeps if there are more than `threshold` lists, and tells whether it did. -/
def sweepAbove (s : Store) (roots : List Node) (threshold : Nat) : Bool × Store :=
  let x := s.toRaw.sweepAbove roots threshold
  (x.1, ⟨x.2, s.coherent.sweepAbove roots threshold⟩)

/-- The store with another threshold. -/
def setThreshold (s : Store) (threshold : Nat) : Store :=
  ⟨{ s.toRaw with threshold }, ⟨s.coherent.find?_iff, s.coherent.live_eq⟩⟩

end Store

end Criteria
