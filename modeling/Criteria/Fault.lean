import Criteria.Node

/-!
# Faults

What can be wrong with a node, an expression or a number that is handed in. Each fault is a cause
with what is needed to name the culprit; `Fault.message` holds all wording.
-/

namespace Criteria

/-- Why the operand of a comparison does not go with its operator. -/
inductive Misfit where
  /-- An unknown check with an operand. -/
  | unwanted
  /-- A comparison without one. -/
  | missing
  deriving DecidableEq

/-- The two kinds of words that a vocabulary numbers. -/
inductive WordKind where
  | names
  | values
  deriving DecidableEq

/-- A reason not to answer. -/
inductive Fault where
  | invalidNode
  /-- A combined node where a leaf or constant is wanted. -/
  | combinedNode (node : Node)
  /-- A constant where a leaf is wanted. -/
  | constantNode (node : Node)
  /-- A leaf or constant where a combined node is wanted. -/
  | notCombined (node : Node)
  | notReference (node : Node)
  | unknownTag (node : Node)
  /-- A combined expression where a leaf or constant is wanted. -/
  | combinedExpression
  | misfit (argument : String) (reason : Misfit)
  /-- A name that the vocabulary lacks. -/
  | unknownName (name : String)
  /-- A value that the vocabulary lacks. -/
  | unknownValue (value : String)
  | nameNumber (number : Nat)
  | valueNumber (number : Nat)
  | vocabularyFull (kind : WordKind)
  /-- A list number that no node can hold. -/
  | numberTooLarge (number : Nat)
  /-- A list number that no list has had so far. -/
  | neverIssued (number : Nat)
  /-- The number of a list that was swept away. -/
  | reclaimed (number : Nat)
  /-- The invalid node among members. -/
  | invalidMember
  | noRoot
  /-- Member lists that contain each other in a circle. -/
  | cyclic (node : Node)
  deriving DecidableEq

namespace Misfit

/-- The misfit in words. -/
def text : Misfit → String
  | unwanted => "IS UNKNOWN takes no operand"
  | missing => "operand missing"

end Misfit

namespace WordKind

/-- The kind in words. -/
def text : WordKind → String
  | names => "names"
  | values => "values"

/-- How many words of the kind a leaf can tell apart. -/
def capacity : WordKind → Nat
  | names => Node.maxNames
  | values => Node.maxValues

end WordKind

namespace Fault

/-- The fault in words. -/
def message : Fault → String
  | invalidNode => "Cannot decode the INVALID node"
  | combinedNode node =>
    "Node " ++ node.text ++ " is a combined expression reference, expected a leaf or special set"
  | constantNode node => "Node " ++ node.text ++ " is a special set, expected a leaf"
  | notCombined node => "Node " ++ node.text ++ " is not a combined expression reference"
  | notReference node => "Node " ++ node.text ++ " is not a reference match"
  | unknownTag node => "Node " ++ node.text ++ " carries no valid operator tag"
  | combinedExpression => "Expected a leaf or special set, got a combined expression"
  | misfit argument reason =>
    "Malformed leaf on argument '" ++ argument ++ "': " ++ reason.text
  | unknownName name => "Argument name '" ++ name ++ "' is not part of the dictionary"
  | unknownValue value => "Value '" ++ value ++ "' is not part of the dictionary"
  | nameNumber number => "Name index " ++ toString number ++ " is not part of the dictionary"
  | valueNumber number => "Value index " ++ toString number ++ " is not part of the dictionary"
  | vocabularyFull kind =>
    "Dictionary capacity exceeded: at most " ++ toString kind.capacity ++ " distinct "
      ++ kind.text ++ " supported"
  | numberTooLarge number =>
    "Combined expression id " ++ toString number ++ " exceeds the addressable range (max: "
      ++ toString Node.maxNumber ++ ")"
  | neverIssued number => "Member array id " ++ toString number ++ " was never issued"
  | reclaimed number =>
    "Member array id " ++ toString number ++ " no longer exists (reclaimed by housekeeping)"
  | invalidMember => "Member array contains the INVALID node"
  | noRoot => "Tree has no root"
  | cyclic node => "The member arrays below node " ++ node.text ++ " form a circle"

end Fault

/-! ## Computations that may fail -/

/-- A computation that may fail and whose changes to the state stay when it does. -/
abbrev Attempt (σ α : Type) := EStateM Fault σ α

/-- What reads the state goes on with the state that it finds. -/
theorem Attempt.get_bind {σ α : Type} (f : σ → Attempt σ α) (s : σ) : (get >>= f) s = f s s := rfl

/-- Takes over the outcome of a computation that has no state. -/
def ofExcept {ε σ α : Type} : Except ε α → EStateM ε σ α
  | .ok a => pure a
  | .error e => throw e

/-! ## Reading a node -/

namespace Node

/-- The operator of a leaf; any other node is at fault. -/
def leafOperator (n : Node) : Except Fault Operator :=
  if n.isInvalid then .error .invalidNode
  else if n.isCombined then .error (.combinedNode n)
  else if n.isConstant then .error (.constantNode n)
  else match n.operator? with
  | some op => .ok op
  | Option.none => .error (.unknownTag n)

/-- The strict negation of a leaf, or the other constant. -/
def negate (n : Node) : Except Fault Node :=
  if n.isInvalid then .error .invalidNode
  else if n.isCombined then .error (.combinedNode n)
  else .ok n.flip

/-- The connective of a combined node and nothing for a leaf or constant. -/
def kind (n : Node) : Except Fault (Option Connective) :=
  if n.isInvalid then .error .invalidNode else .ok n.connective?

/-- The number of the member list of a combined node. -/
def listNumber (n : Node) : Except Fault Nat :=
  if n.isInvalid then .error .invalidNode
  else if n.isCombined then .ok n.number
  else .error (.notCombined n)

/-- The combined node over a member list, unless the number is out of range. -/
def ofListNumber (k : Connective) (id : Nat) : Except Fault Node :=
  if maxNumber < id then .error (.numberTooLarge id) else .ok (combined k id)

/-- The leaf `x IS UNKNOWN` for the argument of a leaf. -/
def unknownOfArgument (n : Node) : Except Fault Node := do
  let _ ← n.leafOperator
  return unknownOf n.argument

/-- The leaf `x IS UNKNOWN` for the argument that a leaf refers to. -/
def unknownOfReference (n : Node) : Except Fault Node := do
  let op ← n.leafOperator
  if op = .isUnknown || !n.hasReference then throw (.notReference n)
  return unknownOf n.value

end Node

end Criteria
