import Criteria.Pruning

/-!
# Distribution

Brings a node into OR-of-AND form: an AND with OR members is multiplied out, so that
`a AND (b OR c)` becomes `(a AND b) OR (a AND c)`. Before a product is built its factors are
compared: of two of which one implies the other only the stronger is kept, and a product that
cannot hold is dropped. Since the terms can grow exponentially, they are pruned together as soon as
there are more than a threshold.
-/

namespace Criteria

namespace Pass

/-- The number of terms above which they are pruned, unless told otherwise. -/
def defaultCleanup : Nat := 500

/-! ## Products -/

/-- The product of two terms, nothing if it is seen not to hold. -/
def product (term factor : Node) : Pass (Option Node) := do
  if term = .all then return some factor
  if factor = .all then return some term
  if ← read (·.implies term factor) then return some term
  if ← read (·.implies factor term) then return some factor
  if ← read (·.contradicts term factor) then return none
  let n ← combine .and [term, factor]
  return if n = .none then none else some n

/-- The products of one term with each factor in turn. -/
def productsOf (term : Node) : List Node → Pass (List Node)
  | [] => return []
  | factor :: rest => do
    check
    let n ← product term factor
    return n.toList ++ (← productsOf term rest)

/-- The products of each term with each factor. -/
def products (factors : List Node) : List Node → Pass (List Node)
  | [] => return []
  | term :: rest => do
    let ns ← productsOf term factors
    return ns ++ (← products factors rest)

/-- The terms that are left when their OR is pruned. -/
def cleanUp (terms : List Node) : Pass (List Node) := do
  let n ← prune (← combine .or terms)
  if n.isOr then members n
  else return if n = .none then [] else [n]

/-- Multiplies the terms with the members of each OR in turn. -/
def multiplyOut (cleanup : Nat) (terms : List Node) : List Node → Pass (List Node)
  | [] => return terms
  | n :: rest => do
    let next := Ascending.ofList (← products (← members n) terms)
    let next ← if cleanup < next.length then cleanUp next else pure next
    if next.isEmpty then return next
    multiplyOut cleanup next rest

/-! ## Nodes -/

/-- The OR-of-AND form of an AND whose members have that form. -/
def distributeAnd (cleanup : Nat) (ms : List Node) : Pass Node := do
  let (ors, others) := ms.partition (·.isOr)
  let base ← combine .and others
  if ors.isEmpty || base = .none then return base
  combine .or (← multiplyOut cleanup [base] ors)

/-- The OR-of-AND form of a node that nests less deep than `fuel`. -/
def distributeWithin (cleanup : Nat) : Nat → Node → Pass Node
  | 0, n => return n
  | fuel + 1, n => do
    check
    match n.connective? with
    | none => return n
    | some k =>
      let ms ← (← members n).mapM (distributeWithin cleanup fuel)
      match k with
      | .and => distributeAnd cleanup ms
      | .or => combine .or ms

/-- The OR-of-AND form of a node; terms are pruned when there are more than `cleanup`. -/
def distribute (cleanup : Nat) (n : Node) : Pass Node := fun w =>
  distributeWithin cleanup (w.store.effort n) n w

end Pass

end Criteria
