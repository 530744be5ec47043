import Criteria.Entailment
import Criteria.Pass

/-!
# Pruning

Removes from a node what is implied by, or contradicts, what is already known at its position.

What is known goes down as a list of *assumptions*. A member of an AND may assume its siblings. A
member of an OR may assume the complements of its leaf siblings, because `x OR m` and `x OR m'`
are the same condition as soon as `m` and `m'` agree where `x` does not hold. Members are pruned one
after the other and each sees what became of those before it, so two equivalent members never
remove each other. Then the pairwise advice is applied until no pair has any, and the whole is
repeated until the node is one that was there before.
-/

namespace Criteria

namespace Pass

/-! ## Members -/

/-- The assumption that a member gives to its siblings: in an AND the member itself, in an OR the
complement of a leaf. -/
def premise (k : Connective) (m : Node) : Pass (Option Node) :=
  match k with
  | .and => return if m = .all then none else some m
  | .or => if m.isCombined || m.isConstant then return none else some <$> build (.complement m)

/-- A member that is still to be pruned, and the assumption that it gives until then. -/
structure Pending where
  member : Node
  premise : Option Node

/-- Prunes a member and then those after it, where `known` is what is assumed because of the parent
and the members before; nothing if one of them decides the whole. -/
def pruneFrom (prune : Node → List Node → Pass Node) (k : Connective) (known : List Node)
    (m : Node) : List Pending → Pass (Option (List Node))
  | [] => do
    let m' ← prune m known
    return if m' = k.absorbingNode then none else some [m']
  | next :: rest => do
    let m' ← prune m (known ++ (next :: rest).filterMap (·.premise))
    if m' = k.absorbingNode then return none
    check
    let known := known ++ (← premise k m').toList
    return (← pruneFrom prune k known next.member rest).map (m' :: ·)

/-- Prunes the members in turn; nothing if one of them decides the whole. -/
def pruneMembers (prune : Node → List Node → Pass Node) (k : Connective)
    (assumptions : List Node) : List Node → Pass (Option (List Node))
  | [] => return some []
  | m :: rest => do
    check
    pruneFrom prune k assumptions m (← rest.mapM fun n => return ⟨n, ← premise k n⟩)

/-- The members of an OR that the assumptions leave open; nothing if one of them is implied. -/
def openMembers (s : Store) (assumptions : List Node) :
    List Node → Except Fault (Option (List Node))
  | [] => .ok (some [])
  | m :: rest => do
    match ← s.settledBy m assumptions with
    | some true => return none
    | some false => openMembers s assumptions rest
    | none => return (← openMembers s assumptions rest).map (m :: ·)

/-! ## Advice -/

/-- A pair of members with advice on it, and the other members. -/
structure Finding where
  advice : Advice
  left : Node
  right : Node
  others : List Node

/-- The first member of a list that, next to `l`, calls for a change. What lies before `l`, and
between the two, is given from the nearest on. -/
def findPartner (k : Connective) (l : Node) (before between : List Node) :
    List Node → Pass (Option Finding)
  | [] => return none
  | r :: after => do
    check
    let advice ← read (·.advise k l r)
    if advice = .retainBoth then findPartner k l before (r :: between) after
    else return some ⟨advice, l, r, before.reverse ++ between.reverse ++ after⟩

/-- The first pair of members that calls for a change. What lies before them is given from the
nearest on. -/
def findPair (k : Connective) (before : List Node) : List Node → Pass (Option Finding)
  | [] => return none
  | l :: rest => do
    match ← findPartner k l before [] rest with
    | some finding => return some finding
    | none => findPair k (l :: before) rest

/-- What a pair leaves in the place of itself; nothing if it decides the whole. -/
def Finding.kept (f : Finding) : Pass (List Node) :=
  match f.advice with
  | .removeLeft => return [f.right]
  | .replaceByKnown => return [← build (.knownCheck f.left)]
  | .removeBoth => return []
  | _ => return [f.left]

/-- Follows the advice on pairs of members, at most `rounds` times. -/
def applyAdvice (k : Connective) : Nat → Node → Pass Node
  | 0, n => return n
  | rounds + 1, n => do
    if n.connective? ≠ some k then return n
    match ← findPair k [] (← members n) with
    | none => return n
    | some f =>
      match f.advice with
      | .alwaysTrue => return .all
      | .neverTrue => return .none
      | _ => applyAdvice k rounds (← combine k (f.others ++ (← f.kept)))

/-! ## Rounds -/

/-- Joins members that were pruned and follows the advice on pairs of them. -/
def rejoin (k : Connective) (rounds : Nat) : Option (List Node) → Pass Node
  | none => return k.absorbingNode
  | some ms => do applyAdvice k rounds (← combine k ms)

/-- Prunes the members of a node once and follows the advice on pairs of them. -/
def pruneOnce (prune : Node → List Node → Pass Node) (rounds : Nat) (assumptions : List Node)
    (k : Connective) (n : Node) : Pass Node := do
  let ms ← members n
  match k with
  | .and => rejoin k rounds (← pruneMembers prune k assumptions ms)
  | .or =>
    match ← read (openMembers · assumptions ms) with
    | none => return .all
    | some ms => rejoin k rounds (← pruneMembers prune k assumptions ms)

/-- Repeats a step on combined nodes until one comes up that was there before. -/
def repeatStep (step : Connective → Node → Pass Node) (seen : List Node) : Nat → Node → Pass Node
  | 0, n => return n
  | rounds + 1, n =>
    match n.connective? with
    | none => return n
    | some k => do
      check
      let n' ← step k n
      if seen.contains n' then return n'
      repeatStep step (n' :: seen) rounds n'

/-- The constant that a node is under some assumptions, if they tell. -/
def settle (n : Node) (assumptions : List Node) : Pass (Option Node) := do
  return (← read (·.settledBy n assumptions)).map fun holds => if holds then .all else .none

/-- Prunes a node under assumptions; `fuel` bounds the levels and the rounds on each. -/
def pruneWithin : Nat → Node → List Node → Pass Node
  | 0, n, _ => return n
  | fuel + 1, n, assumptions => do
    check
    if n.isConstant then return n
    if let some constant ← settle n assumptions then return constant
    let step := pruneOnce (fun m context => pruneWithin fuel m context) fuel assumptions
    let n' ← repeatStep step [n] fuel n
    if n' = n || n'.isConstant then return n'
    if let some constant ← settle n' assumptions then return constant
    return n'

/-- A node that, wherever the assumptions hold, holds exactly where `n` does. -/
def pruneUnder (n : Node) (assumptions : List Node) : Pass Node := fun w =>
  pruneWithin (w.store.effort n) n assumptions w

/-- A node that holds exactly where `n` does. -/
def prune (n : Node) : Pass Node := pruneUnder n []

end Pass

end Criteria
