import Criteria.Budget
import Criteria.Consolidation

/-!
# Passes

A pass replaces nodes by others: it adds lists to a store, asks its budget before each step, and may
fail. Lists that were added and checks that were passed before a failure stay.

A pass descends through nodes and goes round in loops that end when nothing changes any more. Both
are bounded by `Store.effort`: a power of the number of leaf occurrences below the node, which
leaves room above what replacing them one by one could take, on top of a number that no run lives
to see. The second is for lists that refer to numbers not issued yet. What lies below them may grow
while a pass is at work, and no count taken before can tell how far.
-/

namespace Criteria

/-- Why a pass did not finish. -/
inductive Failure where
  | fault (f : Fault)
  | overrun (o : Overrun)
  deriving DecidableEq

namespace Failure

/-- Whether more time might help. -/
def isOverrun : Failure → Bool
  | fault _ => false
  | overrun _ => true

/-- The failure in words. -/
def message : Failure → String
  | fault f => f.message
  | overrun o => o.message

end Failure

/-- What a pass works on. -/
structure Work where
  store : Store
  budget : Budget

/-- A computation that adds lists to a store under a budget. -/
abbrev Pass (α : Type) := EStateM Failure Work α

namespace Pass

/-- Passes one check of the budget. -/
def check : Pass Unit := fun w =>
  match w.budget.check with
  | .ok budget => .ok () { w with budget }
  | .error o => .error (.overrun o) w

/-- Builds on the store. -/
def build {α : Type} (f : Build α) : Pass α := fun ⟨store, budget⟩ =>
  match f store with
  | .ok a store => .ok a ⟨store, budget⟩
  | .error fault store => .error (.fault fault) ⟨store, budget⟩

/-- Reads the store. -/
def read {α : Type} (f : Store → Except Fault α) : Pass α := build (.read f)

/-- The members of a combined node. -/
def members (n : Node) : Pass (List Node) := build (.members n)

/-- The node that joins the members. -/
def combine (k : Connective) (members : List Node) : Pass Node := build (.combine k members)

end Pass

namespace Store

/-- The number of leaf occurrences below each list, counted with multiplicity. A member whose list
comes later, or never came, counts as one. -/
def leafCounts (s : Store) : Array Nat :=
  s.entries.foldl
    (fun counts entry => counts.push ((entry.getD []).foldl
      (fun total m => total + if m.isCombined then counts.getD m.number 1 else 1) 0))
    #[]

/-- The number of leaf occurrences below a node, counted with multiplicity. -/
def leafCount (s : Store) (n : Node) : Nat :=
  if n.isCombined then s.leafCounts.getD n.number 1 else 1

/-- More levels than any run gets down, and more rounds than any run goes. -/
def outOfReach : Nat := 4611686018427387904

/-- More levels, and more rounds on each level, than a pass takes on a node. -/
def effort (s : Store) (n : Node) : Nat :=
  let width := s.size + s.leafCount n + 2
  outOfReach + width * width * width * width

end Store

end Criteria
