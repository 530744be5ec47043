import Criteria.Consolidation

/-!
# Entailment

What can be told about two nodes by looking at one member at a time: whether one implies the
other, whether they contradict each other, and what a pair of siblings means for their parent.

The answers are sound and not complete: *yes* means that the relation holds on every record, *no*
that it was not seen. `(a = 1 OR b = 1) AND (a = 1 OR STRICT NOT b = 1)` implies `a = 1`, but no
single member does.
-/

namespace Criteria

namespace Node

/-- Whether two leaves can never hold together. -/
def conflicts (a b : Node) : Bool :=
  b = a.flip || a.isUnknown && b.requires a.argument || b.isUnknown && a.requires b.argument

end Node

namespace Store

/-! ## Implication and contradiction -/

/-- Whether `a` implies `b`, for nodes that together nest less deep than `fuel`. -/
def impliesWithin (s : Store) : Nat → Node → Node → Except Fault Bool
  | 0, a, _ => .error (.cyclic a)
  | fuel + 1, a, b =>
    if a = b || b = .all || a = .none then .ok true
    else if a = .all || b = .none then .ok false
    else if b.isAnd then do (← s.members b).allM fun m => s.impliesWithin fuel a m
    else if a.isOr then do (← s.members a).allM fun m => s.impliesWithin fuel m b
    else if a.isAnd then do (← s.members a).anyM fun m => s.impliesWithin fuel m b
    else if b.isOr then do (← s.members b).anyM fun m => s.impliesWithin fuel a m
    else .ok (b.isKnown && a.requires b.argument)

/-- Whether `a` and `b` contradict each other, for nodes that together nest less deep than
`fuel`. -/
def contradictsWithin (s : Store) : Nat → Node → Node → Except Fault Bool
  | 0, a, _ => .error (.cyclic a)
  | fuel + 1, a, b =>
    if a = .none || b = .none then .ok true
    else if a = .all || b = .all then .ok false
    else if a.isAnd then do (← s.members a).anyM fun m => s.contradictsWithin fuel m b
    else if b.isAnd then do (← s.members b).anyM fun m => s.contradictsWithin fuel m a
    else if a.isOr then do (← s.members a).allM fun m => s.contradictsWithin fuel m b
    else if b.isOr then do (← s.members b).allM fun m => s.contradictsWithin fuel m a
    else .ok (a.conflicts b)

/-- More levels than a comparison that comes to an end goes down. On its way down it never meets
the same two nodes in the same roles again, and each of the two is one of at most two nodes for
each list, or the leaf that its side ends in. -/
def pairDepth (s : Store) : Nat := 2 * (2 * s.size + 1) * (2 * s.size + 1) + 1

/-- Whether every record that meets `a` is seen to meet `b`. -/
def implies (s : Store) (a b : Node) : Except Fault Bool := s.impliesWithin s.pairDepth a b

/-- Whether no record is seen to meet both `a` and `b`. -/
def contradicts (s : Store) (a b : Node) : Except Fault Bool := s.contradictsWithin s.pairDepth a b

/-- What some assumptions, asked in turn, say of a node: `true` if one implies it, `false` if one
contradicts it. -/
def settledBy (s : Store) (n : Node) : List Node → Except Fault (Option Bool)
  | [] => .ok none
  | a :: rest => do
    if ← s.implies a n then return some true
    if ← s.contradicts a n then return some false
    s.settledBy n rest

end Store

/-! ## Advice on two siblings -/

/-- What to do with two members of one parent. -/
inductive Advice where
  | retainBoth
  | removeLeft
  | removeRight
  /-- The two are equivalent and either can go. -/
  | removeEither
  /-- The two are neutral. -/
  | removeBoth
  /-- Either of the two holds exactly where their arguments are known. -/
  | replaceByKnown
  | alwaysTrue
  | neverTrue
  deriving DecidableEq

namespace Advice

/-- The advice on the same siblings in the other order. -/
def mirror : Advice → Advice
  | removeLeft => removeRight
  | removeRight => removeLeft
  | advice => advice

/-- The advice that an absorbing member calls for. -/
def decided : Connective → Advice
  | .and => neverTrue
  | .or => alwaysTrue

end Advice

namespace Store

/-- What equivalent nodes are weighed by: nesting first, then the number of members. -/
structure Weight where
  nested : Bool
  members : Nat

/-- The weight of a node. -/
def weigh (s : Store) (n : Node) : Except Fault Weight :=
  if n.isCombined then do
    let ms ← s.members n
    return ⟨ms.any (·.isCombined), ms.length⟩
  else .ok ⟨false, 0⟩

/-- Whether the first weight is below the second. -/
def Weight.below (a b : Weight) : Bool :=
  !a.nested && b.nested || a.nested = b.nested && a.members < b.members

/-- The advice on equivalent siblings: the lighter one goes. -/
def adviseEquivalent (s : Store) (left right : Node) : Except Fault Advice := do
  let l ← s.weigh left
  let r ← s.weigh right
  return if l.below r then .removeLeft else if r.below l then .removeRight else .removeEither

/-- The advice on siblings of which the first may imply the second and the second the first: in an
AND the weaker one goes, in an OR the stronger one. -/
def adviseImplied (s : Store) (k : Connective) (left right : Node) : Except Fault Advice := do
  let forth ← s.implies left right
  let back ← s.implies right left
  match forth, back, k with
  | true, true, _ => s.adviseEquivalent left right
  | true, false, .and => return .removeRight
  | true, false, .or => return .removeLeft
  | false, true, .and => return .removeLeft
  | false, true, .or => return .removeRight
  | false, false, _ => return .retainBoth

/-- The advice on two members of a parent with connective `k`. -/
def advise (s : Store) (k : Connective) (left right : Node) : Except Fault Advice :=
  if left = k.absorbingNode || right = k.absorbingNode then .ok (.decided k)
  else if left = k.neutralNode && right = k.neutralNode then .ok .removeBoth
  else if left = k.neutralNode then .ok .removeLeft
  else if right = k.neutralNode then .ok .removeRight
  else if left = right then .ok .removeEither
  else if left.isLeaf && right = left.flip then
    .ok (if k = .and || left.isUnknownCheck then .decided k else .replaceByKnown)
  else do
    if k = .and then
      if ← s.contradicts left right then return .neverTrue
    s.adviseImplied k left right

end Store

end Criteria
