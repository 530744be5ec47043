import Criteria.Meaning

/-!
# Validity

What holds of every forest that is grown by the operations of this library, and of every node they
return: the lists that nodes refer to are there, lie below them, and are consolidated, and what the
translator remembers is what it would find anew. One list may serve an AND and an OR, so being
consolidated is a matter of the list and the connective together.
-/

namespace Criteria

/-- A member list as `Store.combine` leaves it for a connective. -/
structure Consolidated (k : Connective) (l : List Node) : Prop where
  ascending : Ascending l
  two_le : 2 ≤ l.length
  /-- No member is a constant or the invalid node. -/
  plain : ∀ m ∈ l, m.isLeaf = true ∨ m.isCombined = true
  /-- No member has the same connective. -/
  lifted : ∀ m ∈ l, m.connective? ≠ some k
  /-- No members decide the whole. -/
  undecided : k.isDecided l = false

/-- The node of some leaf under a vocabulary. -/
def Vocabulary.Encodes (v : Vocabulary) (n : Node) : Prop := ∃ l, v.encodeLeaf l = .ok n

namespace Store

/-- A constant, a leaf of the vocabulary, or a combined node over a consolidated list. -/
inductive ValidNode (v : Vocabulary) (s : Store) : Node → Prop where
  | constant {n : Node} : n.isConstant = true → ValidNode v s n
  | leaf {n : Node} : v.Encodes n → ValidNode v s n
  | combined {n : Node} {k : Connective} {l : List Node} : n.connective? = some k →
      s.list? n.number = some l → Consolidated k l → ValidNode v s n

/-- All members of lists are valid, lists hold only what came before them, and nodes can hold the
numbers that were issued. -/
structure Valid (v : Vocabulary) (s : Store) : Prop where
  layered : s.Layered
  members : ∀ id l, s.list? id = some l → ∀ m ∈ l, s.ValidNode v m
  size_le : s.size ≤ Node.maxNumber + 1

theorem valid_empty (v : Vocabulary) (threshold : Nat) : (empty threshold).Valid v where
  layered := layered_empty _
  members id l h := by simp at h
  size_le := Nat.zero_le _

end Store

/-- All that is remembered is what the vocabulary says. -/
structure Translator.Faithful (t : Translator) : Prop where
  encoded : ∀ (l : Leaf) (n : Node), t.encoded.results[l]? = some n →
    t.vocabulary.encodeLeaf l = .ok n
  decoded : ∀ (n : Node) (l : Leaf), t.decoded.results[n]? = some l →
    t.vocabulary.encodeLeaf l = .ok n

theorem Translator.faithful_ofVocabulary (v : Vocabulary) : (ofVocabulary v).Faithful where
  encoded l n h := by simp [ofVocabulary, Memo.empty] at h
  decoded n l h := by simp [ofVocabulary, Memo.empty] at h

namespace Forest

/-- A node that is valid in the store and under the vocabulary of a forest. -/
def ValidNode (f : Forest) (n : Node) : Prop := f.store.ValidNode f.vocabulary n

/-- The store, the translator and the roots are valid. -/
structure Valid (f : Forest) : Prop where
  store : f.store.Valid f.vocabulary
  translator : f.translator.Faithful
  roots : ∀ n ∈ f.roots, f.ValidNode n

/-- A forest without any conditions is valid. -/
theorem valid_ofVocabulary (v : Vocabulary) : (ofVocabulary v).Valid where
  store := Store.valid_empty v _
  translator := Translator.faithful_ofVocabulary v
  roots n h := by simp [ofVocabulary] at h

end Forest

end Criteria
