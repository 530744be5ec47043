import Criteria.Ascending
import Criteria.Store

/-!
# Consolidation

The one way to build a combined node. `Store.combine` lifts the members of members with the same
connective, sorts and merges equal ones, and collapses what is decided already: an absorbing
constant, an AND with members that cannot hold together, an OR with `x IS UNKNOWN` and its
negation, an empty list and a single member. Only what is left is registered, so nodes that are
built from the same members are the same node.

Built on it are the exact complement of a node, which follows De Morgan and turns a leaf into its
strict negation or the unknown-ness of the arguments it needs, and the check that the arguments of
a leaf are known.
-/

namespace Criteria

/-- The node of the constant that a member list may hold or lack. -/
def Connective.neutralNode (k : Connective) : Node := .ofConstant k.neutral

/-- The node of the constant that decides the whole. -/
def Connective.absorbingNode (k : Connective) : Node := .ofConstant k.absorbing

/-! ## Members that decide the whole -/

/-- Whether an ascending list has a leaf next to its negation, or `x IS UNKNOWN` next to a leaf
that needs `x`. -/
def hasContradiction (members : List Node) : Bool :=
  members.any fun m =>
    m.isLeaf && (Ascending.contains members m.flip
      || m.isUnknown && members.any (·.requires m.argument))

/-- Whether an ascending list has both `x IS UNKNOWN` and `x IS NOT UNKNOWN`. -/
def hasTautology (members : List Node) : Bool :=
  members.any fun m => m.isUnknown && Ascending.contains members m.flip

/-- Whether the members decide the whole under a connective. -/
def Connective.isDecided (k : Connective) (members : List Node) : Bool :=
  match k with
  | .and => hasContradiction members
  | .or => hasTautology members

namespace Store

/-! ## Building -/

/-- The members with those of the same connective replaced by their own members. -/
def flatten (s : Store) (k : Connective) : List Node → Except Fault (List Node)
  | [] => .ok []
  | m :: ms => do
    let front ← if m.connective? = some k then s.members m else .ok [m]
    let back ← s.flatten k ms
    return front ++ back

/-- The node for a consolidated list. -/
def wrap (s : Store) (k : Connective) : List Node → Except Fault (Node × Store)
  | [] => .ok (k.neutralNode, s)
  | [m] => .ok (m, s)
  | ms => do
    let (id, s) ← s.register ms
    return (← Node.ofListNumber k id, s)

/-- The node that joins the members. -/
def combine (s : Store) (k : Connective) (members : List Node) : Except Fault (Node × Store) := do
  if members.contains .invalid then throw .invalidMember
  let flat := Ascending.ofList (← s.flatten k members)
  if flat.contains k.absorbingNode then return (k.absorbingNode, s)
  let rest := flat.filter (· ≠ k.neutralNode)
  if k.isDecided rest then return (k.absorbingNode, s)
  s.wrap k rest

end Store

/-! ## Building step by step -/

/-- A computation that adds lists to a store. -/
abbrev Build (α : Type) := EStateM Fault Store α

namespace Build

/-- Reads the store. -/
def read {α : Type} (f : Store → Except Fault α) : Build α := fun s =>
  match f s with
  | .ok a => .ok a s
  | .error fault => .error fault s

/-- The members of a combined node. -/
def members (n : Node) : Build (List Node) := read (·.members n)

/-- The node that joins the members. -/
def combine (k : Connective) (members : List Node) : Build Node := fun s =>
  match s.combine k members with
  | .ok (n, s) => .ok n s
  | .error fault => .error fault s

/-- The complement of a leaf that compares values: the values do not compare, or one of the
arguments is unknown. -/
def complementOfLeaf (n : Node) : Build Node := do
  let negation ← read fun _ => n.negate
  let argument ← read fun _ => n.unknownOfArgument
  if n.isReference then
    combine .or [negation, argument, ← read fun _ => n.unknownOfReference]
  else combine .or [negation, argument]

/-- The complement of a node whose members nest no deeper than `fuel`. -/
def complementWithin : Nat → Node → Build Node
  | 0, n => throw (.cyclic n)
  | fuel + 1, n =>
    if n.isConstant || n.isUnknownCheck then read fun _ => n.negate
    else match n.connective? with
    | some k => do
      let ms ← members n
      combine k.dual (← ms.mapM (complementWithin fuel))
    | none => complementOfLeaf n

/-- More levels than a node can nest, however many lists are added on the way: lists that do not
contain each other in a circle have different numbers, and there are `Node.maxNumber + 1` numbers. -/
def deepest : Nat := Node.maxNumber + 3

/-- The node that holds of exactly the records that `n` does not hold of. -/
def complement (n : Node) : Build Node := complementWithin deepest n

/-- The node that holds where the arguments of a leaf are known. -/
def knownCheck (n : Node) : Build Node := do
  let known ← read fun _ => do (← n.unknownOfArgument).negate
  if n.isReference then
    combine .and [known, ← read fun _ => do (← n.unknownOfReference).negate]
  else return known

end Build

end Criteria
