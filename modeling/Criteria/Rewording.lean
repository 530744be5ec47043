import Mathlib.Data.List.Forall2
import Mathlib.Logic.Relation
import Criteria.Expression

/-!
# Rewordings

Expressions that say the same in other words. A *rearranged* expression has members in another
order, and nothing else is different. A *reworded* one may also mention members more or less often,
have some of them in a group of their own under the same connective, have an expression alone under
a connective, and mention the constant that makes no difference. All this may happen at any depth
and any number of times.
-/

namespace Criteria

namespace Expression

/-- A change at one position of an expression. -/
inductive Somewhere (change : Expression → Expression → Prop) : Expression → Expression → Prop
  | here {e e' : Expression} : change e e' → Somewhere change e e'
  | member {k : Connective} {e e' : Expression} {front back : List Expression} :
      Somewhere change e e' →
      Somewhere change (.combined k (front ++ e :: back)) (.combined k (front ++ e' :: back))

/-- The same members in another order. -/
inductive Reorder : Expression → Expression → Prop
  | perm {k : Connective} {es es' : List Expression} : es.Perm es' →
      Reorder (.combined k es) (.combined k es')

/-- One change of the words that says the same. -/
inductive Reword : Expression → Expression → Prop
  | perm {k : Connective} {es es' : List Expression} : es.Perm es' →
      Reword (.combined k es) (.combined k es')
  | duplicate {k : Connective} {e : Expression} {es : List Expression} : e ∈ es →
      Reword (.combined k es) (.combined k (e :: es))
  /-- Members in a group of their own under the same connective. -/
  | group {k : Connective} {inner outer : List Expression} :
      Reword (.combined k (inner ++ outer)) (.combined k (.combined k inner :: outer))
  /-- An expression as the only member. -/
  | wrap {k : Connective} {e : Expression} : Reword e (.combined k [e])
  | neutral {k : Connective} {es : List Expression} :
      Reword (.combined k es) (.combined k (.constant k.neutral :: es))

/-- The same expression up to the order of members. -/
def Rearranged : Expression → Expression → Prop := Relation.ReflTransGen (Somewhere Reorder)

/-- The same expression up to changes of the words, each of them made or undone. -/
def Reworded : Expression → Expression → Prop := Relation.EqvGen (Somewhere Reword)

/-! ## Laws -/

variable {k : Connective} {e e' : Expression} {es es' front back : List Expression}

theorem Rearranged.member (h : Rearranged e e') :
    Rearranged (.combined k (front ++ e :: back)) (.combined k (front ++ e' :: back)) := by
  induction h with
  | refl => exact .refl
  | tail _ step ih => exact ih.tail step.member

/-- Members may be rearranged one by one. -/
theorem Rearranged.members (h : List.Forall₂ Rearranged es es') (front : List Expression) :
    Rearranged (.combined k (front ++ es)) (.combined k (front ++ es')) := by
  induction h generalizing front with
  | nil => exact .refl
  | @cons e e' es es' head _ ih =>
    have first : Rearranged (.combined k (front ++ e :: es)) (.combined k (front ++ e' :: es)) :=
      head.member
    have rest := ih (front ++ [e'])
    rw [List.append_assoc, List.append_assoc] at rest
    exact first.trans rest

/-- And then be put in another order. -/
theorem Rearranged.combined {es'' : List Expression} (each : List.Forall₂ Rearranged es es'')
    (perm : es''.Perm es') : Rearranged (.combined k es) (.combined k es') :=
  (members each []).tail (.here (.perm perm))

end Expression

end Criteria
