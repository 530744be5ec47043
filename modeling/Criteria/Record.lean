import Criteria.Expression

/-!
# Records

What an expression means. A record knows the values of some arguments. A comparison holds if all
arguments it looks at are known and the values compare as its operator says; its strict negation
holds if they are known and do not. So a comparison and its negation never hold together, and
neither holds where an argument is unknown; the unknown check tells which.
-/

namespace Criteria

/-- The values of the arguments that are known. -/
abbrev Record := String → Option String

/-- Whether one text occurs in another. -/
def occurs (part : List Char) : List Char → Bool
  | [] => part.isEmpty
  | c :: cs => part.isPrefixOf (c :: cs) || occurs part cs

/-- Whether two values compare as the operator says. Values are ordered by code point; the unknown
check compares no values. -/
def Operator.compares : Operator → String → String → Bool
  | lessThan, left, right => left < right
  | greaterThan, left, right => right < left
  | equals, left, right => left = right
  | contains, left, right => occurs right.toList left.toList
  | isUnknown, _, _ => false

/-- The value of an operand, if it is known. -/
def Operand.valueIn (r : Record) : Operand → Option String
  | value v => some v
  | reference name => r name

/-- Whether the values compare, if all that are looked at are known. -/
def Comparison.holds? (r : Record) (c : Comparison) : Option Bool := do
  let left ← r c.argument
  let right ← (← c.operand).valueIn r
  return c.operator.compares left right

/-- Whether a record meets a leaf. -/
def Leaf.holds (r : Record) (l : Leaf) : Bool :=
  match l.comparison.operator with
  | .isUnknown => (r l.comparison.argument).isSome = l.negated
  | _ => l.comparison.holds? r = some (!l.negated)

namespace Expression

mutual
/-- Whether a record meets an expression. -/
def holds (r : Record) : Expression → Bool
  | constant c => c = .all
  | leaf l => l.holds r
  | combined .and members => allHold r members
  | combined .or members => anyHolds r members

/-- Whether a record meets every member. -/
def allHold (r : Record) : List Expression → Bool
  | [] => true
  | e :: es => holds r e && allHold r es

/-- Whether a record meets some member. -/
def anyHolds (r : Record) : List Expression → Bool
  | [] => false
  | e :: es => holds r e || anyHolds r es
end

theorem allHold_eq_all (r : Record) (es : List Expression) : allHold r es = es.all (holds r) := by
  induction es with
  | nil => rfl
  | cons e es ih => simp [allHold, ih]

theorem anyHolds_eq_any (r : Record) (es : List Expression) :
    anyHolds r es = es.any (holds r) := by
  induction es with
  | nil => rfl
  | cons e es ih => simp [anyHolds, ih]

/-- Every leaf has an operand exactly if its operator wants one. -/
def WellFormed (e : Expression) : Prop := ∀ c ∈ e.comparisons, c.isWellFormed = true

instance (e : Expression) : Decidable e.WellFormed :=
  inferInstanceAs (Decidable (∀ c ∈ e.comparisons, c.isWellFormed = true))

/-- Joining members means what the connective says, however many there are. -/
theorem holds_join (r : Record) (k : Connective) (es : List Expression) :
    holds r (join k es) = match k with
      | .and => es.all (holds r)
      | .or => es.any (holds r) := by
  match es with
  | [] => cases k <;> rfl
  | [e] => cases k <;> simp [join]
  | e :: e' :: es =>
    cases k
    · simp [join, holds, allHold_eq_all]
    · simp [join, holds, anyHolds_eq_any]

end Expression

/-- A leaf and its strict negation never hold together. -/
theorem Leaf.not_holds_strictNot (r : Record) (l : Leaf) (h : l.holds r = true) :
    l.strictNot.holds r = false := by
  unfold Leaf.holds Leaf.strictNot at *
  split at h <;> simp_all

end Criteria
