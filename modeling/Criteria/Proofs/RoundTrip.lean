import Criteria.Proofs.Session

/-!
# Codes read back

**Theorem (`codes_read_back`).** Every well-formed leaf over the words of a vocabulary has a code,
which is none of a constant, of a combined node or of no node, from which every translator over the
vocabulary reads the leaf back, the fresh one included. So different leaves have different codes.
Negating a leaf is flipping its code. The nodes over a list give back its number and the connective.

A vocabulary has no more words than a leaf has room for, so all fields of a code fit. A leaf has a
code as soon as its words are there (`codes_of_covers`), and what a translator remembers is what it
would find anew, so it does not matter what was translated before (`encode_of_over`,
`decode_of_over`).
-/

namespace Criteria

/-! ## Words that are there -/

/-- The names and the value of a comparison are among the words. -/
structure Vocabulary.Covers (v : Vocabulary) (c : Comparison) : Prop where
  names : ∀ name ∈ c.arguments, ∃ a, v.names.word? a = some name
  values : ∀ w ∈ c.value?, ∃ x, v.values.word? x = some w

theorem Vocabulary.codes_of_covers {v : Vocabulary} {l : Leaf}
    (wf : l.comparison.isWellFormed = true) (h : v.Covers l.comparison) : ∃ n, v.Codes l n := by
  obtain ⟨neg, name, op, operand⟩ := l
  obtain ⟨a, ha⟩ := h.names name List.mem_cons_self
  -- A comparison that has an operand is not an unknown check.
  have op_ne : operand ≠ none → op ≠ .isUnknown := by
    rintro some rfl
    cases operand with
    | none => exact some rfl
    | some x => simp [Comparison.isWellFormed] at wf
  cases operand with
  | none =>
    cases op <;> simp [Comparison.isWellFormed] at wf
    exact ⟨_, .check ha⟩
  | some x =>
    have ne := op_ne (by simp)
    cases x with
    | value w =>
      obtain ⟨x, hx⟩ := h.values w rfl
      exact ⟨_, .value ne ha hx⟩
    | reference other =>
      obtain ⟨x, hx⟩ := h.names other (by simp [Comparison.arguments, Comparison.referenced?])
      exact ⟨_, .reference ne ha hx⟩

/-! ## Translators over a vocabulary -/

namespace Translator

variable {v : Vocabulary} {t u : Translator} {l l' : Leaf} {n : Node}

/-- A translator over a vocabulary that remembers only what is true. -/
structure Over (v : Vocabulary) (t : Translator) : Prop where
  faithful : t.Faithful
  vocabulary_eq : t.vocabulary = v

theorem over_ofVocabulary (v : Vocabulary) : (ofVocabulary v).Over v :=
  ⟨faithful_ofVocabulary v, rfl⟩

theorem encode_of_over (h : t.Over v) (code : v.Codes l n) :
    ∃ u, encode (.leaf l) t = .ok n u ∧ u.Over v := by
  rw [← h.vocabulary_eq] at code
  obtain ⟨u, run, faithful, same⟩ := encodeLeaf_of_codes h.faithful code
  exact ⟨u, run, faithful, same.trans h.vocabulary_eq⟩

theorem decode_of_over (h : t.Over v) (code : v.Codes l n) :
    ∃ u, decode n t = .ok (.leaf l) u ∧ u.Over v := by
  obtain ⟨ne_all, ne_none⟩ := Node.ne_constant_of_isLeaf code.isLeaf
  rw [← h.vocabulary_eq] at code
  obtain ⟨u, run, faithful, same⟩ := decodeLeaf_of_codes h.faithful code
  refine ⟨u, ?_, faithful, same.trans h.vocabulary_eq⟩
  rw [decode, if_neg ne_all, if_neg ne_none]
  exact bind_eq_of_ok run

theorem codes_of_encode (h : t.Over v) (run : encode (.leaf l) t = .ok n u) : v.Codes l n := by
  obtain ⟨-, same, code⟩ := ensures_encodeLeaf.of_ok h.faithful run
  have same : u.vocabulary = t.vocabulary := same
  rwa [same, h.vocabulary_eq] at code

end Translator

/-! ## Combined nodes -/

namespace Node

variable {n : Node} {k : Connective} {id : Nat}

theorem ofListNumber_eq_ok_iff :
    ofListNumber k id = .ok n ↔ id ≤ maxNumber ∧ n = combined k id := by
  unfold ofListNumber
  by_cases large : maxNumber < id
  · simp [large]
  · simp [large, Nat.le_of_not_lt large, eq_comm]

theorem kind_of_isCombined (h : n.isCombined = true) : n.kind = .ok n.connective? := by
  rw [kind, isInvalid, decide_eq_false (ne_invalid_of_isCombined h)]
  rfl

end Node

/-! ## Reading back -/

/-- A code of a leaf, as all translators over the vocabulary give and take it. -/
structure Vocabulary.RoundTrip (v : Vocabulary) (l : Leaf) (n : Node) : Prop where
  isLeaf : n.isLeaf = true
  isConstant : n.isConstant = false
  isCombined : n.isCombined = false
  ne_invalid : n ≠ .invalid
  encode : ∀ t : Translator, t.Over v →
    ∃ u, Translator.encode (.leaf l) t = .ok n u ∧ u.Over v
  decode : ∀ t : Translator, t.Over v →
    ∃ u, Translator.decode n t = .ok (.leaf l) u ∧ u.Over v
  negate : n.negate = .ok n.flip
  encode_strictNot : ∀ t : Translator, t.Over v →
    ∃ u, Translator.encode (Expression.leaf l).strictNot t = .ok n.flip u ∧ u.Over v

theorem Vocabulary.Codes.roundTrip {v : Vocabulary} {l : Leaf} {n : Node} (h : v.Codes l n) :
    v.RoundTrip l n where
  isLeaf := h.isLeaf
  isConstant := Node.not_isConstant_of_isLeaf h.isLeaf
  isCombined := Node.not_isCombined_of_isLeaf h.isLeaf
  ne_invalid := Node.ne_invalid_of_isLeaf h.isLeaf
  encode _ ht := Translator.encode_of_over ht h
  decode _ ht := Translator.decode_of_over ht h
  negate := Node.negate_of_isLeaf h.isLeaf
  encode_strictNot _ ht := Translator.encode_of_over ht h.flip

/-- Leaves over a vocabulary have codes that are read back by every translator over it, the fresh
one among them, and no two have the same; to negate is to flip. The nodes over a list give back its
number and the connective, and no two are the same. -/
theorem codes_read_back (v : Vocabulary) :
    (Translator.ofVocabulary v).Over v ∧
    (∀ l : Leaf, l.comparison.isWellFormed = true → v.Covers l.comparison →
      ∃ n, v.RoundTrip l n) ∧
    (∀ (l l' : Leaf) (n : Node) (t t' u u' : Translator), t.Over v → t'.Over v →
      Translator.encode (.leaf l) t = .ok n u → Translator.encode (.leaf l') t' = .ok n u' →
      l = l') ∧
    (∀ n m : Node, n.negate = .ok m → m.negate = .ok n) ∧
    (∀ (k : Connective) (id : Nat), id ≤ Node.maxNumber →
      ∃ n, Node.ofListNumber k id = .ok n ∧ n ≠ .invalid ∧ n.isLeaf = false ∧
        n.isConstant = false ∧ n.listNumber = .ok id ∧ n.kind = .ok (some k)) ∧
    ∀ (k k' : Connective) (id id' : Nat) (n : Node), Node.ofListNumber k id = .ok n →
      Node.ofListNumber k' id' = .ok n → k = k' ∧ id = id' := by
  refine ⟨Translator.over_ofVocabulary v, fun l wf covers => ?_, ?_, ?_, ?_, ?_⟩
  · obtain ⟨n, code⟩ := Vocabulary.codes_of_covers wf covers
    exact ⟨n, code.roundTrip⟩
  · intro l l' n t t' u u' ht ht' run run'
    have code := Translator.codes_of_encode ht run
    have code' := Translator.codes_of_encode ht' run'
    exact code.leaf_unique code'
  · intro n m
    exact Node.negate_of_negate
  · intro k id le
    have hk := Node.connective?_combined (k := k) le
    have comb := Node.isCombined_of_connective? hk
    refine ⟨.combined k id, Node.ofListNumber_eq_ok_iff.2 ⟨le, rfl⟩,
      Node.ne_invalid_of_isCombined comb, Node.isLeaf_of_isCombined comb,
      Node.not_isConstant_of_isCombined comb, ?_, ?_⟩
    · rw [Node.listNumber_of_isCombined comb, Node.number_combined le]
    · rw [Node.kind_of_isCombined comb, hk]
  · intro k k' id id' n eq eq'
    obtain ⟨le, rfl⟩ := Node.ofListNumber_eq_ok_iff.1 eq
    obtain ⟨le', same⟩ := Node.ofListNumber_eq_ok_iff.1 eq'
    have connective := Node.connective?_combined (k := k) le
    have number := Node.number_combined (k := k) le
    rw [same] at connective number
    rw [Node.connective?_combined le'] at connective
    rw [Node.number_combined le'] at number
    cases connective
    exact ⟨rfl, number.symm⟩

/-! ## A sample -/

namespace Sample

theorem covers_equalLeaf : vocabulary.Covers equalLeaf.comparison where
  names name hn := by
    obtain rfl := List.mem_singleton.1 hn
    exact ⟨0, rfl⟩
  values w hw := by
    cases hw
    exact ⟨0, rfl⟩

/-- The code of `a = x` is given and taken back, and its negation is that of `STRICT NOT a = x`. -/
theorem equal_read_back : ∃ n u w,
    Translator.encode (.leaf equalLeaf) (.ofVocabulary vocabulary) = .ok n u ∧
    Translator.decode n (.ofVocabulary vocabulary) = .ok (.leaf equalLeaf) w ∧
    n.flip.negate = .ok n := by
  obtain ⟨fresh, codes, -, involutive, -⟩ := codes_read_back vocabulary
  obtain ⟨n, trip⟩ := codes equalLeaf (by decide) covers_equalLeaf
  obtain ⟨u, encode, -⟩ := trip.encode _ fresh
  obtain ⟨w, decode, -⟩ := trip.decode _ fresh
  exact ⟨n, u, w, encode, decode, involutive _ _ trip.negate⟩

end Sample

end Criteria
