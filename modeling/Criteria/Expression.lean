import Criteria.Ascending
import Criteria.Operator

/-!
# Expressions

Conditions as they are handed in and given back: comparisons of a named argument with a value or
with another argument, their strict negations, the two constants, and nested AND and OR of these.
Nothing is checked here; a comparison may lack the operand that its operator needs, which
`Comparison.WellFormed` tells.

Negation is strict: `STRICT NOT a = 1` wants `a` to be known. A combined expression has no strict
negation and `strictNot` leaves it alone.
-/

namespace Criteria

/-! ## Leaves -/

/-- What an argument is compared with. -/
inductive Operand where
  /-- A literal value. -/
  | value (v : String)
  /-- The value of another argument. -/
  | reference (name : String)
  deriving DecidableEq, Hashable, Inhabited

namespace Operand

/-- The operand as it is printed; a reference carries an at sign. -/
def text : Operand → String
  | value v => v
  | reference name => "@" ++ name

end Operand

/-- An argument, an operator and, unless the operator stands alone, an operand. -/
structure Comparison where
  argument : String
  operator : Operator
  operand : Option Operand
  deriving DecidableEq, Hashable, Inhabited

namespace Comparison

/-- The name of the argument that the comparison refers to. -/
def referenced? (c : Comparison) : Option String :=
  match c.operand with
  | some (.reference name) => some name
  | _ => none

/-- The literal value that the comparison mentions. -/
def value? (c : Comparison) : Option String :=
  match c.operand with
  | some (.value v) => some v
  | _ => none

/-- The arguments that the comparison looks at. -/
def arguments (c : Comparison) : List String := c.argument :: c.referenced?.toList

/-- An operand is there exactly if the operator wants one. -/
def isWellFormed (c : Comparison) : Bool :=
  match c.operator with
  | .isUnknown => c.operand.isNone
  | _ => c.operand.isSome

/-- The comparison as it is printed. -/
def text (c : Comparison) : String :=
  match c.operand with
  | none => c.argument ++ " " ++ c.operator.symbol
  | some operand => c.argument ++ " " ++ c.operator.symbol ++ " " ++ operand.text

end Comparison

/-- A comparison or its strict negation. -/
structure Leaf where
  negated : Bool
  comparison : Comparison
  deriving DecidableEq, Hashable, Inhabited

namespace Leaf

/-- The leaf that wants the opposite of the same known arguments. -/
def strictNot (l : Leaf) : Leaf := ⟨!l.negated, l.comparison⟩

/-- The leaf as it is printed. The negation of an unknown check has a form of its own. -/
def text (l : Leaf) : String :=
  match l.negated, l.comparison.operator with
  | false, _ => l.comparison.text
  | true, .isUnknown => l.comparison.argument ++ " IS NOT UNKNOWN"
  | true, _ => "STRICT NOT " ++ l.comparison.text

theorem strictNot_strictNot (l : Leaf) : l.strictNot.strictNot = l := by
  cases l; simp [strictNot]

end Leaf

/-! ## Expressions -/

/-- A condition on records. -/
inductive Expression where
  | constant (c : Constant)
  | leaf (l : Leaf)
  | combined (k : Connective) (members : List Expression)
  deriving Inhabited

namespace Expression

/-- The positive leaf that compares `argument` with a value. -/
def compare (argument : String) (operator : Operator) (v : String) : Expression :=
  leaf ⟨false, argument, operator, some (.value v)⟩

/-- The positive leaf that compares `argument` with the argument `name`. -/
def compareTo (argument : String) (operator : Operator) (name : String) : Expression :=
  leaf ⟨false, argument, operator, some (.reference name)⟩

/-- The leaf that holds of the records that do not know `argument`. -/
def isUnknown (argument : String) : Expression :=
  leaf ⟨false, argument, .isUnknown, none⟩

/-- The leaf that holds of the records that know `argument`. -/
def isNotUnknown (argument : String) : Expression :=
  leaf ⟨true, argument, .isUnknown, none⟩

/-- The members under one connective; no member is the neutral constant and one is itself. -/
def join (k : Connective) : List Expression → Expression
  | [] => constant k.neutral
  | [e] => e
  | members => combined k members

/-- The strict negation of a leaf or constant; a combined expression stays as it is. -/
def strictNot : Expression → Expression
  | constant c => constant c.negate
  | leaf l => leaf l.strictNot
  | combined k members => combined k members

/-- Whether the expression has no members. -/
def isLeaf : Expression → Bool
  | combined _ _ => false
  | _ => true

/-! ## Walks -/

mutual
/-- The constants and leaves from left to right. -/
def leaves : Expression → List Expression
  | constant c => [constant c]
  | leaf l => [leaf l]
  | combined _ members => leavesOf members

/-- The constants and leaves of each member in turn. -/
def leavesOf : List Expression → List Expression
  | [] => []
  | e :: es => leaves e ++ leavesOf es
end

mutual
/-- How many combined expressions lie above the deepest leaf. -/
def depth : Expression → Nat
  | constant _ => 0
  | leaf _ => 0
  | combined _ members => 1 + maxDepth members

/-- The greatest depth of a member, `0` if there is none. -/
def maxDepth : List Expression → Nat
  | [] => 0
  | e :: es => max (depth e) (maxDepth es)
end

mutual
/-- The expression as it is printed, members in parentheses with the connective between them. -/
def text : Expression → String
  | constant c => c.text
  | leaf l => l.text
  | combined k members => "(" ++ (" " ++ k.text ++ " ").intercalate (texts members) ++ ")"

/-- The members as they are printed. -/
def texts : List Expression → List String
  | [] => []
  | e :: es => text e :: texts es
end

/-- The comparison of a leaf. -/
def comparison? : Expression → Option Comparison
  | leaf l => some l.comparison
  | _ => none

/-- The comparisons from left to right. -/
def comparisons (e : Expression) : List Comparison := e.leaves.filterMap comparison?

/-- The arguments that the expression looks at, in order and each of them once. -/
def argumentNames (e : Expression) : List String :=
  Ascending.ofList (e.comparisons.flatMap (·.arguments))

/-- The literal values that the expression mentions, in order and each of them once. -/
def values (e : Expression) : List String :=
  Ascending.ofList (e.comparisons.filterMap (·.value?))

theorem leavesOf_eq_flatMap (es : List Expression) : leavesOf es = es.flatMap leaves := by
  induction es with
  | nil => rfl
  | cons e es ih => simp [leavesOf, ih]

end Expression

end Criteria
