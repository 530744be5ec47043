/-!
# Operators, connectives and constants

The closed vocabulary that conditions are written in: five ways to compare an argument, two ways
to combine conditions, and the two conditions that do not look at anything. Each has one printed
form, and an operator also has the number under which it is packed into a node.
-/

namespace Criteria

/-! ## Operators -/

/-- How a condition looks at its argument. -/
inductive Operator where
  | lessThan
  | greaterThan
  | equals
  | contains
  | isUnknown
  deriving DecidableEq, Hashable, Inhabited

namespace Operator

/-- All operators in the order of their tags. -/
def all : List Operator := [lessThan, greaterThan, equals, contains, isUnknown]

/-- The number that stands for the operator in a node; `0` stands for none of them. -/
def tag : Operator → Nat
  | lessThan => 1
  | greaterThan => 2
  | equals => 3
  | contains => 4
  | isUnknown => 5

/-- The operator with a given tag. -/
def ofTag? : Nat → Option Operator
  | 1 => some lessThan
  | 2 => some greaterThan
  | 3 => some equals
  | 4 => some contains
  | 5 => some isUnknown
  | _ => none

/-- The operator as it is written between an argument and its operand. -/
def symbol : Operator → String
  | lessThan => "<"
  | greaterThan => ">"
  | equals => "="
  | contains => "CONTAINS"
  | isUnknown => "IS UNKNOWN"

theorem ofTag?_eq_some_iff {t : Nat} {op : Operator} : ofTag? t = some op ↔ op.tag = t := by
  constructor
  · intro h
    unfold ofTag? at h
    split at h <;> simp_all [tag] <;> subst h <;> rfl
  · rintro rfl
    cases op <;> rfl

end Operator

/-! ## Constants -/

/-- The condition that every record meets and the one that none meets. -/
inductive Constant where
  | all
  | none
  deriving DecidableEq, Hashable, Inhabited

namespace Constant

/-- The other constant. -/
def negate : Constant → Constant
  | all => none
  | none => all

/-- The constant as it is printed. -/
def text : Constant → String
  | all => "<ALL>"
  | none => "<NONE>"

end Constant

/-! ## Connectives -/

/-- How the members of a combined condition are joined. -/
inductive Connective where
  | and
  | or
  deriving DecidableEq, Hashable, Inhabited

namespace Connective

/-- The connective on the other side of De Morgan's laws. -/
def dual : Connective → Connective
  | and => or
  | or => and

/-- The constant that a member list may hold or lack without a difference. -/
def neutral : Connective → Constant
  | and => .all
  | or => .none

/-- The constant that decides the whole as soon as it is a member. -/
def absorbing (k : Connective) : Constant := k.neutral.negate

/-- The connective as it is written between two members. -/
def text : Connective → String
  | and => "AND"
  | or => "OR"

theorem dual_dual (k : Connective) : k.dual.dual = k := by cases k <;> rfl

end Connective

end Criteria
