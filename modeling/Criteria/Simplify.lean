import Criteria.Distribution
import Criteria.Factoring
import Criteria.Forest.Merge

/-!
# Simplification

The passes one after the other: prune, bring into OR-of-AND form, take out common members. A forest
gets its new roots when all of them are ready; if a pass fails on any root, the old ones stay, and
what was built so far lies in the store until the next sweep.
-/

namespace Criteria

/-! ## Settings -/

/-- How much time and room a simplification may take. -/
structure Settings where
  /-- The time for one call. -/
  milliseconds : Nat := 5000
  /-- The number of terms above which they are pruned. -/
  cleanup : Nat := Pass.defaultCleanup
  /-- The number of lists above which the store is swept first. -/
  housekeeping : Nat := Store.defaultThreshold

instance : Inhabited Settings := ⟨{}⟩

/-! ## Roots -/

namespace Pass

/-- Simplifies one node. -/
def simplify (cleanup : Nat) (n : Node) : Pass Node := do
  let n ← prune n
  let n ← distribute cleanup n
  factor n

end Pass

namespace Forest

/-- A computation on a forest under a budget. -/
abbrev Run (α : Type) := EStateM Failure (Forest × Budget) α

/-- Lets a pass work on the store. -/
def run {α : Type} (x : Pass α) : Run α := fun (⟨translator, store, roots⟩, budget) =>
  match x ⟨store, budget⟩ with
  | .ok a ⟨store, budget⟩ => .ok a (⟨translator, store, roots⟩, budget)
  | .error failure ⟨store, budget⟩ => .error failure (⟨translator, store, roots⟩, budget)

/-- Replaces every root by what a pass makes of it, all of them or none. -/
def mapRoots (x : Node → Pass Node) : Run Unit := do
  let roots ← run ((← get).1.roots.mapM x)
  modify fun (f, budget) => ({ f with roots }, budget)

/-- Sweeps the store if there are more than `housekeeping` lists and simplifies every root. -/
def simplify (cleanup housekeeping : Nat) : Run Unit := do
  modify fun (f, budget) => ((f.sweepAbove housekeeping).2, budget)
  mapRoots (Pass.simplify cleanup)

/-- The forest of several expressions, each coded on its own and merged with those before it;
nothing if there is no expression. -/
def ofBatch : List Expression → Except Fault (Option Forest)
  | [] => .ok none
  | e :: es => do
    let first ← ofExpression e
    let merged ← es.foldlM (fun f e => do f.merge (← ofExpression e)) first
    return some merged

end Forest

/-! ## Expressions -/

/-- Takes a fault for a failure. -/
def orFail {α : Type} : Except Fault α → Except Failure α
  | .ok a => .ok a
  | .error fault => .error (.fault fault)

namespace Settings

/-- The budget of one call that starts when the clock does. -/
def budget (settings : Settings) (clock : Nat → Nat) : Budget :=
  .fresh (.deadline settings.milliseconds clock)

/-- The forest with its roots simplified. -/
def simplifyForest (settings : Settings) (clock : Nat → Nat) (f : Forest) :
    Except Failure Forest :=
  match Forest.simplify settings.cleanup settings.housekeeping (f, settings.budget clock) with
  | .ok () (f, _) => .ok f
  | .error failure _ => .error failure

/-- An expression that means what `e` does. -/
def simplify (settings : Settings) (clock : Nat → Nat) (e : Expression) :
    Except Failure Expression := do
  let f ← settings.simplifyForest clock (← orFail (Forest.ofExpression e))
  return (← orFail (Forest.complete Forest.expressRoot f)).1

/-- Expressions that mean, one by one, what `es` do, found together in one forest. -/
def simplifyAll (settings : Settings) (clock : Nat → Nat) (es : List Expression) :
    Except Failure (List Expression) := do
  match ← orFail (Forest.ofBatch es) with
  | none => return []
  | some f =>
    let f ← settings.simplifyForest clock f
    return (← orFail (Forest.complete Forest.expressRoots f)).1

end Settings

end Criteria
