import Criteria.Proofs.Decoding

/-!
# Codes that are read as the same leaf

**Theorem (`decoding_canonical`).** A code that is read and then coded again becomes itself, with
the operand cleared if it is an unknown check. A code is read just if it is that of a constant or
leaf once this operand is cleared, and two codes are read as the same leaf just if they are the same
once it is.

A leaf other than an unknown check is made of its fields (`Node.leaf_fields`), and all of them are
read. Reading does not look at the operand of an unknown check, in which coding leaves no bit set.
-/

namespace Criteria

namespace Node

variable {n : Node} {op : Operator}

/-- The code with the fields cleared that are not read: those of the operand of an unknown check. -/
def cleared (n : Node) : Node :=
  if n.isUnknownCheck then .leaf n.isNegated .isUnknown false n.argument 0 else n

theorem argument_lt (n : Node) : n.argument < maxNames := Nat.mod_lt _ (by decide)

theorem value_lt (n : Node) : n.value < maxValues := Nat.mod_lt _ (by decide)

/-- A leaf is made of its fields. -/
theorem leaf_fields (hop : n.leafOperator = .ok op) :
    leaf n.isNegated op n.hasReference n.argument n.value = n := by
  have leaf := isLeaf_iff.1 (isLeaf_of_leafOperator hop)
  have tag := tag_of_leafOperator hop
  rw [← toNat_inj, toNat_leaf n.argument_lt n.value_lt, tag]
  simp only [isNegated, hasReference, decide_eq_true_eq, Node.tag, argument, value]
  split <;> split <;> omega

theorem isUnknownCheck_iff : n.isUnknownCheck = true ↔ n.leafOperator = .ok .isUnknown := by
  constructor
  · intro check
    rw [isUnknownCheck, Bool.and_eq_true, decide_eq_true_eq] at check
    obtain ⟨invalid, combined, constant⟩ := isLeaf_iff_sorts.1 check.1
    rw [leafOperator, invalid, combined, constant, operator?, if_pos check.1,
      Operator.ofTag?_eq_some_iff.2 check.2.symm]
    rfl
  · intro hop
    rw [isUnknownCheck, isLeaf_of_leafOperator hop, ← tag_of_leafOperator hop]
    rfl

theorem cleared_of_isConstant (constant : n.isConstant = true) : n.cleared = n := by
  rcases isConstant_iff.1 constant with rfl | rfl <;> rfl

/-- An unknown check is cleared to another code just if something is set in its operand. -/
theorem cleared_ne_iff : n.cleared ≠ n ↔
    n.isUnknownCheck = true ∧ (n.hasReference = true ∨ n.value ≠ 0) := by
  unfold cleared
  split
  next check =>
    have whole := leaf_fields (isUnknownCheck_iff.1 check)
    have zero : 0 < maxValues := by decide
    rw [and_iff_right check, ← not_iff_not, not_not, not_or, Bool.not_eq_true, not_not]
    constructor
    · intro same
      have ref := congrArg hasReference same
      have value := congrArg Node.value same
      rw [hasReference_leaf n.argument_lt zero] at ref
      rw [value_leaf n.argument_lt zero] at value
      exact ⟨ref.symm, value.symm⟩
    · rintro ⟨ref, value⟩
      rwa [ref, value] at whole
  next other => simp [other]

end Node

namespace Vocabulary

variable {v : Vocabulary} {n : Node} {l : Leaf}

/-- What is read as a leaf is the code of that leaf, once it is cleared. -/
theorem codes_cleared (read : v.decodeLeaf n = .ok l) : v.Codes l n.cleared := by
  obtain ⟨neg, name, op, operand⟩ := l
  obtain ⟨hop, hname, hoperand, negated⟩ := of_decodeLeaf read
  have word := word?_of_name hname
  have whole := Node.leaf_fields hop
  unfold Node.cleared
  rw [negated] at whole ⊢
  by_cases unknown : op = .isUnknown
  · subst unknown
    rw [if_pos (Node.isUnknownCheck_iff.2 hop)]
    cases hoperand
    exact .check word
  have comparison : ¬ n.isUnknownCheck = true := fun check => by
    have hop' := Node.isUnknownCheck_iff.1 check
    rw [hop] at hop'
    exact unknown (Except.ok.inj hop')
  rw [if_neg comparison, ← whole]
  simp only [operandOf, if_neg unknown] at hoperand
  split at hoperand
  · next ref =>
    obtain ⟨other, hother, eq⟩ := bind_eq_ok_iff.1 hoperand
    cases eq
    rw [ref]
    exact .reference unknown word (word?_of_name hother)
  · next ref =>
    obtain ⟨w, hw, eq⟩ := bind_eq_ok_iff.1 hoperand
    cases eq
    rw [Bool.not_eq_true] at ref
    rw [ref]
    exact .value unknown word (word?_of_value hw)

/-- What is cleared is not read anyway. -/
theorem decodeLeaf_cleared (v : Vocabulary) (n : Node) :
    v.decodeLeaf n.cleared = v.decodeLeaf n := by
  unfold Node.cleared
  split
  · next check =>
    have zero : 0 < Node.maxValues := by decide
    have hop := Node.isUnknownCheck_iff.1 check
    have check' : (Node.leaf n.isNegated .isUnknown false n.argument 0).isUnknownCheck = true :=
      Node.isUnknownCheck_leaf n.argument_lt zero
    have hop' := Node.isUnknownCheck_iff.1 check'
    simp only [decodeLeaf, hop, hop', Node.argument_leaf n.argument_lt zero,
      Node.isNegated_leaf n.argument_lt zero]
    rfl
  · rfl

end Vocabulary

namespace Translator

variable {v : Vocabulary} {n m : Node} {e : Expression}

/-- A fresh translator reads a code as it reads the cleared one. -/
theorem outcome_decode_cleared (v : Vocabulary) (n : Node) :
    outcome (decode n.cleared) (ofVocabulary v) = outcome (decode n) (ofVocabulary v) := by
  have trusted := (Arises.fresh v).trusted
  by_cases same : n.cleared = n
  · rw [same]
  have check := (Node.cleared_ne_iff.1 same).1
  have leaf := Node.isLeaf_of_leafOperator (Node.isUnknownCheck_iff.1 check)
  have leaf' : n.cleared.isLeaf = true := by
    rw [Node.cleared, if_pos check]
    exact Node.isLeaf_leaf n.argument_lt (by decide)
  rw [trusted.outcome_decode (Node.not_isConstant_of_isLeaf leaf),
    trusted.outcome_decode (Node.not_isConstant_of_isLeaf leaf')]
  exact congrArg _ (v.decodeLeaf_cleared n)

/-- What is read becomes the cleared code when it is coded again. -/
theorem encode_of_decode (read : outcome (decode n) (ofVocabulary v) = .ok e) :
    outcome (encode e) (ofVocabulary v) = .ok n.cleared := by
  cases constant : n.isConstant with
  | true =>
    obtain ⟨c, run, rfl⟩ := outcome_decode_of_isConstant (t := ofVocabulary v) constant
    rw [read] at run
    cases run
    rw [Node.cleared_of_isConstant constant]
    rfl
  | false =>
    rw [(Arises.fresh v).trusted.outcome_decode constant] at read
    cases run : v.decodeLeaf n with
    | ok l =>
      rw [show (ofVocabulary v).vocabulary.decodeLeaf n = .ok l from run] at read
      cases read
      exact (outcome_encodeLeaf (faithful_ofVocabulary v) l).trans
        (Vocabulary.codes_cleared run).encodeLeaf
    | error fault =>
      rw [show (ofVocabulary v).vocabulary.decodeLeaf n = .error fault from run] at read
      cases read

/-- What something is coded as is read as that. -/
theorem decode_of_encode (run : outcome (encode e) (ofVocabulary v) = .ok n) :
    outcome (decode n) (ofVocabulary v) = .ok e := by
  cases e with
  | constant c =>
    cases c <;> cases run <;> rfl
  | combined k es => cases run
  | leaf l =>
    have code := (outcome_encodeLeaf (faithful_ofVocabulary v) l).symm.trans run
    exact outcome_decode_of_codes (faithful_ofVocabulary v) (Vocabulary.codes_of_encodeLeaf code)

/-- **One code for each leaf, but for the operand of unknown checks.** What is read and coded again
is the code that it was, cleared of what is not read. Exactly the codes are read that some constant
or leaf has once they are cleared, and exactly those are read as the same that are the same once
they are cleared. To clear a code changes unknown checks alone, if something is set in their
operand. -/
theorem decoding_canonical (v : Vocabulary) (n : Node) :
    (∀ e, outcome (decode n) (ofVocabulary v) = .ok e →
      outcome (encode e) (ofVocabulary v) = .ok n.cleared) ∧
    ((∃ e, outcome (decode n) (ofVocabulary v) = .ok e) ↔
      ∃ e, outcome (encode e) (ofVocabulary v) = .ok n.cleared) ∧
    (∀ e m, outcome (decode n) (ofVocabulary v) = .ok e →
      (outcome (decode m) (ofVocabulary v) = .ok e ↔ m.cleared = n.cleared)) ∧
    (n.cleared ≠ n ↔ n.isUnknownCheck = true ∧ (n.hasReference = true ∨ n.value ≠ 0)) := by
  refine ⟨fun e => encode_of_decode, ?image, ?same, Node.cleared_ne_iff⟩
  case image =>
    refine ⟨fun ⟨e, read⟩ => ⟨e, encode_of_decode read⟩, fun ⟨e, code⟩ => ⟨e, ?_⟩⟩
    rw [← outcome_decode_cleared]
    exact decode_of_encode code
  case same =>
    intro e m read
    constructor
    · intro read'
      have eq := encode_of_decode read'
      rw [encode_of_decode read] at eq
      exact (Except.ok.inj eq).symm
    · intro same
      rw [← outcome_decode_cleared, same, outcome_decode_cleared, read]

end Translator

/-! ## A sample -/

namespace Sample

open Translator

/-- The node of `a IS UNKNOWN`. -/
def unknown : Node := .leaf false .isUnknown false 0 0

/-- The stray code is read, but what it is read as has another code, which is read as the same. -/
theorem stray_not_canonical :
    outcome (decode stray) (ofVocabulary vocabulary) = .ok (.isUnknown "a") ∧
    outcome (encode (.isUnknown "a")) (ofVocabulary vocabulary) = .ok unknown ∧
    outcome (decode unknown) (ofVocabulary vocabulary) = .ok (.isUnknown "a") ∧
    unknown ≠ stray ∧
    ¬ ∀ e, outcome (decode stray) (ofVocabulary vocabulary) = .ok e →
      outcome (encode e) (ofVocabulary vocabulary) = .ok stray := by
  have read : outcome (decode stray) (ofVocabulary vocabulary) = .ok (.isUnknown "a") :=
    (Arises.fresh vocabulary).trusted.outcome_decode (by decide)
  have cleared : stray.cleared = unknown := by decide
  have code := encode_of_decode read
  rw [cleared] at code
  have ne : unknown ≠ stray := by decide
  refine ⟨read, code, decode_of_encode code, ne, fun canonical => ne ?_⟩
  have again := canonical _ read
  rw [code] at again
  exact Except.ok.inj again

/-- Cleared, the stray code is that of `a IS UNKNOWN`. -/
theorem stray_cleared : outcome (encode (.isUnknown "a")) (ofVocabulary vocabulary) = .ok unknown ∧
    (∃ e, outcome (decode stray) (ofVocabulary vocabulary) = .ok e) ∧ stray.cleared ≠ stray := by
  obtain ⟨again, image, -, cleared⟩ := decoding_canonical vocabulary stray
  have read : outcome (decode stray) (ofVocabulary vocabulary) = .ok (.isUnknown "a") :=
    (Arises.fresh vocabulary).trusted.outcome_decode (by decide)
  exact ⟨again _ read, image.2 ⟨_, again _ read⟩, cleared.2 ⟨by decide, .inr (by decide)⟩⟩

end Sample

end Criteria
