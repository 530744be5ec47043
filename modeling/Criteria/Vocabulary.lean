import Criteria.Expression
import Criteria.Fault
import Std.Data.HashMap

/-!
# Vocabularies

The names and values that leaves may mention, each with a number. Words are numbered in the order
in which they come, and a word that comes again keeps its number; a vocabulary that grows therefore
keeps every number it gave. `WordList` carries the proof that numbers and words are in bijection
(`index_eq`), and `Vocabulary` that no number outgrows the room that a node has for it.
-/

namespace Criteria

/-! ## Numbered words -/

/-- Distinct words and, for each of them, its position. -/
structure WordList where
  words : Array String
  index : Std.HashMap String Nat
  index_eq : ∀ (w : String) (i : Nat), index[w]? = some i ↔ words[i]? = some w

namespace WordList

/-- No words. -/
def empty : WordList := ⟨#[], ∅, by simp⟩

/-- How many words there are. -/
def size (l : WordList) : Nat := l.words.size

/-- The word with a given number. -/
def word? (l : WordList) (i : Nat) : Option String := l.words[i]?

/-- The number of a word. -/
def number? (l : WordList) (w : String) : Option Nat := l.index[w]?

theorem number?_eq_some_iff (l : WordList) (w : String) (i : Nat) :
    l.number? w = some i ↔ l.word? i = some w :=
  l.index_eq w i

/-- Appends a word that is not yet there. -/
def push (l : WordList) (w : String) (new : l.number? w = none) : WordList where
  words := l.words.push w
  index := l.index.insert w l.words.size
  index_eq v i := by
    have old := l.index_eq v i
    have fresh : ∀ j : Nat, l.words[j]? ≠ some w := fun j h => by
      have := (l.index_eq w j).2 h
      simp [number?, this] at new
    rw [Std.HashMap.getElem?_insert, Array.getElem?_push]
    by_cases hv : w = v
    · subst hv
      by_cases hi : i = l.words.size
      · simp [hi]
      · simp only [beq_self_eq_true, if_true, Option.some.injEq, hi, if_false]
        exact ⟨fun h => absurd h.symm hi, fun h => absurd h (fresh i)⟩
    · by_cases hi : i = l.words.size
      · subst hi
        simp only [beq_iff_eq, hv, if_false, if_true, Option.some.injEq]
        rw [old]
        simp
      · simp only [beq_iff_eq, hv, if_false, hi]
        exact old

@[simp] theorem size_push (l : WordList) (w : String) (new : l.number? w = none) :
    (l.push w new).size = l.size + 1 := by
  simp [push, size]

/-- Whether the words of `other` come first, in the same order, in `l`. -/
def continues (l other : WordList) : Bool := other.words.isPrefixOf l.words

end WordList

/-! ## Vocabularies -/

/-- The names and values that leaves may mention. -/
structure Vocabulary where
  names : WordList
  values : WordList
  names_le : names.size ≤ WordKind.names.capacity
  values_le : values.size ≤ WordKind.values.capacity

namespace Vocabulary

/-- No names and no values. -/
def empty : Vocabulary := ⟨.empty, .empty, Nat.zero_le _, Nat.zero_le _⟩

instance : Inhabited Vocabulary := ⟨empty⟩

/-- Adds a name; one that is there already needs no room. -/
def addName (v : Vocabulary) (w : String) : Except Fault Vocabulary :=
  match h : v.names.number? w with
  | some _ => .ok v
  | none =>
    if room : v.names.size < WordKind.names.capacity then
      .ok { v with
        names := v.names.push w h
        names_le := by rw [WordList.size_push]; exact room }
    else .error (.vocabularyFull .names)

/-- Adds a value; one that is there already needs no room. -/
def addValue (v : Vocabulary) (w : String) : Except Fault Vocabulary :=
  match h : v.values.number? w with
  | some _ => .ok v
  | none =>
    if room : v.values.size < WordKind.values.capacity then
      .ok { v with
        values := v.values.push w h
        values_le := by rw [WordList.size_push]; exact room }
    else .error (.vocabularyFull .values)

/-- Adds all the names and then all the values. -/
def add (v : Vocabulary) (names values : List String) : Except Fault Vocabulary := do
  let v ← names.foldlM addName v
  values.foldlM addValue v

/-- The vocabulary of the given words. -/
def ofLists (names values : List String) : Except Fault Vocabulary := empty.add names values

/-- The vocabulary of the words that an expression mentions. -/
def ofExpression (e : Expression) : Except Fault Vocabulary := ofLists e.argumentNames e.values

/-- The vocabulary of the words that some expressions mention, one expression after the other. -/
def ofExpressions (es : List Expression) : Except Fault Vocabulary :=
  es.foldlM (fun v e => v.add e.argumentNames e.values) empty

/-- Whether all words of `other` have the same number in `v`. -/
def continues (v other : Vocabulary) : Bool :=
  v.names.continues other.names && v.values.continues other.values

/-- The words of both, those of `v` under their old numbers. -/
def merge (v other : Vocabulary) : Except Fault Vocabulary :=
  if v.continues other then .ok v
  else v.add other.names.words.toList other.values.words.toList

/-! ## Leaves and nodes -/

/-- The number of a name. -/
def nameNumber (v : Vocabulary) (name : String) : Except Fault Nat :=
  match v.names.number? name with
  | some i => .ok i
  | none => .error (.unknownName name)

/-- The number of a value. -/
def valueNumber (v : Vocabulary) (value : String) : Except Fault Nat :=
  match v.values.number? value with
  | some i => .ok i
  | none => .error (.unknownValue value)

/-- The name with a given number. -/
def name (v : Vocabulary) (i : Nat) : Except Fault String :=
  match v.names.word? i with
  | some name => .ok name
  | none => .error (.nameNumber i)

/-- The value with a given number. -/
def value (v : Vocabulary) (i : Nat) : Except Fault String :=
  match v.values.word? i with
  | some value => .ok value
  | none => .error (.valueNumber i)

/-- The node of a leaf. -/
def encodeLeaf (v : Vocabulary) (l : Leaf) : Except Fault Node := do
  let c := l.comparison
  if !c.isWellFormed then
    throw (.misfit c.argument (if c.operator = .isUnknown then .unwanted else .missing))
  let argument ← v.nameNumber c.argument
  match c.operand with
  | none => return .leaf l.negated c.operator false argument 0
  | some (.value w) => return .leaf l.negated c.operator false argument (← v.valueNumber w)
  | some (.reference name) => return .leaf l.negated c.operator true argument (← v.nameNumber name)

/-- The operand in the fields of a leaf with operator `op`. -/
def operandOf (v : Vocabulary) (n : Node) (op : Operator) : Except Fault (Option Operand) :=
  if op = .isUnknown then .ok none
  else if n.hasReference then return some (.reference (← v.name n.value))
  else return some (.value (← v.value n.value))

/-- The leaf of a node that is neither constant nor combined. -/
def decodeLeaf (v : Vocabulary) (n : Node) : Except Fault Leaf := do
  let op ← n.leafOperator
  let argument ← v.name n.argument
  let operand ← v.operandOf n op
  return ⟨n.isNegated, argument, op, operand⟩

/-- The name of the argument of a leaf. -/
def argumentOf (v : Vocabulary) (n : Node) : Except Fault String := do
  let _ ← n.leafOperator
  v.name n.argument

/-- The operand of a leaf, nothing for an unknown check. -/
def operand (v : Vocabulary) (n : Node) : Except Fault (Option Operand) := do
  let op ← n.leafOperator
  v.operandOf n op

/-- The literal value of a leaf, nothing for an unknown check and for a reference. -/
def literal (v : Vocabulary) (n : Node) : Except Fault (Option String) := do
  let op ← n.leafOperator
  if op = .isUnknown || n.hasReference then return none
  return some (← v.value n.value)

end Vocabulary

end Criteria
