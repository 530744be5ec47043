import Criteria.Memo
import Criteria.Vocabulary

/-!
# Translators

A vocabulary with a memo for each direction. What was translated once, in either direction, is
remembered in both, so the next question about the same leaf is answered from a memo. Failures are
counted as misses and not remembered. A translator that is merged with another keeps its memos:
the numbers of its words stay what they were.
-/

namespace Criteria

/-- A vocabulary and what was translated with it. -/
structure Translator where
  vocabulary : Vocabulary
  encoded : Memo Leaf Node
  decoded : Memo Node Leaf
  deriving Inhabited

namespace Translator

/-- A translator that has translated nothing. -/
def ofVocabulary (v : Vocabulary) : Translator := ⟨v, .empty, .empty⟩

/-- How many questions were answered from a memo. -/
def hits (t : Translator) : Nat := t.encoded.hits + t.decoded.hits

/-- How many questions were not. -/
def misses (t : Translator) : Nat := t.encoded.misses + t.decoded.misses

/-- Remembers in both directions that `n` is the node of `l`. -/
def remember (t : Translator) (l : Leaf) (n : Node) : Translator :=
  { t with encoded := t.encoded.insert l n, decoded := t.decoded.insert n l }

/-- The node of a leaf, from the memo if it is there. -/
def encodeLeaf (l : Leaf) : Attempt Translator Node := fun t =>
  match t with
  | ⟨vocabulary, encoded, decoded⟩ =>
    match encoded.ask l with
    | (some n, encoded) => .ok n ⟨vocabulary, encoded, decoded⟩
    | (none, encoded) =>
      match vocabulary.encodeLeaf l with
      | .ok n => .ok n (remember ⟨vocabulary, encoded, decoded⟩ l n)
      | .error fault => .error fault ⟨vocabulary, encoded, decoded⟩

/-- The leaf of a node, from the memo if it is there. -/
def decodeLeaf (n : Node) : Attempt Translator Leaf := fun t =>
  match n.leafOperator with
  | .error fault => .error fault t
  | .ok _ =>
    match t with
    | ⟨vocabulary, encoded, decoded⟩ =>
      match decoded.ask n with
      | (some l, decoded) => .ok l ⟨vocabulary, encoded, decoded⟩
      | (none, decoded) =>
        match vocabulary.decodeLeaf n with
        | .ok l => .ok l (remember ⟨vocabulary, encoded, decoded⟩ l n)
        | .error fault => .error fault ⟨vocabulary, encoded, decoded⟩

/-- The node of a constant or leaf. -/
def encode : Expression → Attempt Translator Node
  | .constant c => pure (.ofConstant c)
  | .leaf l => encodeLeaf l
  | .combined _ _ => throw .combinedExpression

/-- The constant or leaf of a node. -/
def decode (n : Node) : Attempt Translator Expression :=
  if n = .all then pure (.constant .all)
  else if n = .none then pure (.constant .none)
  else do return .leaf (← decodeLeaf n)

/-- The translator over the words of both, with the memos of `t`. -/
def merge (t other : Translator) : Except Fault Translator := do
  return { t with vocabulary := ← t.vocabulary.merge other.vocabulary }

end Translator

end Criteria
