import Criteria.Validity
import Criteria.Proofs.Growth
import Criteria.Proofs.NodeFields

/-!
# The coding of leaves

`Vocabulary.Codes v l n` says, field by field, that `n` is the node of the leaf `l`. Encoding finds
this node and decoding finds the leaf again, so what a node means is what its leaf means.

**Meaning of leaf codes.** A record knows some of the numbered arguments (`Vocabulary.knows`). An
unknown check asks whether it knows one; any other leaf can only hold where it knows all arguments
of the leaf (`knowsAll`), and where it does, exactly one of the leaf and its flipped code holds.
-/

namespace Criteria

/-! ## Comparing leaves -/

section Comparing

variable {l : Leaf} {r : Record}

theorem Leaf.holds_of_ne (h : l.comparison.operator ≠ .isUnknown) :
    l.holds r = decide (l.comparison.holds? r = some (!l.negated)) := by
  rw [Leaf.holds]
  split
  · next eq => exact (h eq).elim
  · rfl

/-- A leaf that compares needs its arguments. Where they are known, it holds or its negation. -/
theorem Leaf.holds_strictNot_of_ne (h : l.comparison.operator ≠ .isUnknown) :
    (l.holds r = true → (l.comparison.holds? r).isSome = true) ∧
      l.strictNot.holds r = ((l.comparison.holds? r).isSome && !l.holds r) := by
  have h' : l.strictNot.comparison.operator ≠ .isUnknown := h
  rw [holds_of_ne h, holds_of_ne h']
  refine ⟨fun holds => ?_, Bool.eq_iff_iff.2 ?_⟩
  · rw [of_decide_eq_true holds]
    rfl
  · rw [decide_eq_true_eq, Bool.and_eq_true, Bool.not_eq_true', decide_eq_false_iff_not]
    show l.comparison.holds? r = some (!!l.negated) ↔ _
    cases l.comparison.holds? r with
    | none => simp
    | some b => cases b <;> cases l.negated <;> simp

theorem Comparison.isSome_holds?_value {name : String} {op : Operator} {w : String} :
    (Comparison.holds? r ⟨name, op, some (.value w)⟩).isSome = (r name).isSome := by
  simp only [holds?, Operand.valueIn]
  cases r name <;> rfl

theorem Comparison.isSome_holds?_reference {name : String} {op : Operator} {other : String} :
    (Comparison.holds? r ⟨name, op, some (.reference other)⟩).isSome =
      ((r name).isSome && (r other).isSome) := by
  simp only [holds?, Operand.valueIn]
  cases left : r name <;> cases right : r other <;> simp [right]

end Comparing

namespace Vocabulary

variable {v : Vocabulary}

/-! ## Codes -/

/-- The node of a leaf, field by field. -/
inductive Codes (v : Vocabulary) : Leaf → Node → Prop
  | check {neg : Bool} {name : String} {a : Nat} :
      v.names.word? a = some name →
      Codes v ⟨neg, name, .isUnknown, none⟩ (.leaf neg .isUnknown false a 0)
  | value {neg : Bool} {name : String} {op : Operator} {w : String} {a x : Nat} :
      op ≠ .isUnknown → v.names.word? a = some name → v.values.word? x = some w →
      Codes v ⟨neg, name, op, some (.value w)⟩ (.leaf neg op false a x)
  | reference {neg : Bool} {name : String} {op : Operator} {other : String} {a x : Nat} :
      op ≠ .isUnknown → v.names.word? a = some name → v.names.word? x = some other →
      Codes v ⟨neg, name, op, some (.reference other)⟩ (.leaf neg op true a x)

theorem lt_maxNames {a : Nat} {w : String} (h : v.names.word? a = some w) : a < Node.maxNames :=
  Nat.lt_of_lt_of_le (Array.getElem?_eq_some_iff.1 h).1 v.names_le

theorem lt_maxValues {x : Nat} {w : String} (h : v.values.word? x = some w) :
    x < Node.maxValues :=
  Nat.lt_of_lt_of_le (Array.getElem?_eq_some_iff.1 h).1 v.values_le

/-- The number of a name fits into the field of a value, too. -/
theorem lt_maxValues_of_name {a : Nat} {w : String} (h : v.names.word? a = some w) :
    a < Node.maxValues :=
  Nat.lt_trans (lt_maxNames h) (by decide)

theorem zero_lt_maxValues : 0 < Node.maxValues := by decide

/-! ## Encoding and decoding -/

theorem nameNumber_eq_ok_iff {name : String} {a : Nat} :
    v.nameNumber name = .ok a ↔ v.names.word? a = some name := by
  rw [nameNumber, ← WordList.number?_eq_some_iff]
  cases v.names.number? name <;> simp

theorem valueNumber_eq_ok_iff {w : String} {x : Nat} :
    v.valueNumber w = .ok x ↔ v.values.word? x = some w := by
  rw [valueNumber, ← WordList.number?_eq_some_iff]
  cases v.values.number? w <;> simp

theorem name_eq_ok {name : String} {a : Nat} (h : v.names.word? a = some name) :
    v.name a = .ok name := by
  rw [Vocabulary.name, h]

theorem value_eq_ok {w : String} {x : Nat} (h : v.values.word? x = some w) :
    v.value x = .ok w := by
  rw [Vocabulary.value, h]

theorem operandOf_value {n : Node} {op : Operator} {w : String} (hop : op ≠ .isUnknown)
    (href : n.hasReference = false) (hw : v.value n.value = .ok w) :
    v.operandOf n op = .ok (some (.value w)) := by
  rw [operandOf, if_neg hop, href, hw]
  rfl

theorem operandOf_reference {n : Node} {op : Operator} {name : String} (hop : op ≠ .isUnknown)
    (href : n.hasReference = true) (hname : v.name n.value = .ok name) :
    v.operandOf n op = .ok (some (.reference name)) := by
  rw [operandOf, if_neg hop, href, hname]
  rfl

theorem decodeLeaf_eq_ok {n : Node} {op : Operator} {name : String} {operand : Option Operand}
    (hop : n.leafOperator = .ok op) (hname : v.name n.argument = .ok name)
    (hoperand : v.operandOf n op = .ok operand) :
    v.decodeLeaf n = .ok ⟨n.isNegated, name, op, operand⟩ := by
  rw [decodeLeaf, hop]
  simp only [bind, Except.bind, hname, hoperand]
  rfl

theorem codes_of_encodeLeaf {l : Leaf} {n : Node} (h : v.encodeLeaf l = .ok n) : v.Codes l n := by
  obtain ⟨neg, name, op, operand⟩ := l
  simp only [encodeLeaf] at h
  split at h
  · cases h
  next wf =>
  rw [Bool.not_eq_true', Bool.not_eq_false] at wf
  obtain ⟨a, ha, h⟩ := bind_eq_ok_iff.1 h
  rw [nameNumber_eq_ok_iff] at ha
  have op_ne : operand ≠ none → op ≠ .isUnknown := by
    rintro some rfl
    cases operand <;> simp_all [Comparison.isWellFormed]
  split at h
  · cases h
    cases op <;> simp [Comparison.isWellFormed] at wf
    exact .check ha
  · obtain ⟨x, hx, h⟩ := bind_eq_ok_iff.1 h
    cases h
    exact .value (op_ne (by simp)) ha (valueNumber_eq_ok_iff.1 hx)
  · obtain ⟨x, hx, h⟩ := bind_eq_ok_iff.1 h
    cases h
    exact .reference (op_ne (by simp)) ha (nameNumber_eq_ok_iff.1 hx)

namespace Codes

variable {l : Leaf} {n : Node}

theorem isWellFormed (h : v.Codes l n) : l.comparison.isWellFormed = true := by
  cases h with
  | check => rfl
  | @value _ _ op _ _ _ ne => cases op <;> first | rfl | exact (ne rfl).elim
  | @reference _ _ op _ _ _ ne => cases op <;> first | rfl | exact (ne rfl).elim

theorem encodeLeaf (h : v.Codes l n) : v.encodeLeaf l = .ok n := by
  have wf := h.isWellFormed
  cases h with
  | check name =>
    simp only [Vocabulary.encodeLeaf, wf, nameNumber_eq_ok_iff.2 name]
    rfl
  | value _ name value =>
    simp only [Vocabulary.encodeLeaf, wf, nameNumber_eq_ok_iff.2 name,
      valueNumber_eq_ok_iff.2 value]
    rfl
  | reference _ name other =>
    simp only [Vocabulary.encodeLeaf, wf, nameNumber_eq_ok_iff.2 name,
      nameNumber_eq_ok_iff.2 other]
    rfl

theorem isLeaf (h : v.Codes l n) : n.isLeaf = true := by
  cases h with
  | check name => exact Node.isLeaf_leaf (lt_maxNames name) zero_lt_maxValues
  | value _ name value => exact Node.isLeaf_leaf (lt_maxNames name) (lt_maxValues value)
  | reference _ name other =>
    exact Node.isLeaf_leaf (lt_maxNames name) (lt_maxValues_of_name other)

theorem operator? (h : v.Codes l n) : n.operator? = some l.comparison.operator := by
  cases h with
  | check name => exact Node.operator?_leaf (lt_maxNames name) zero_lt_maxValues
  | value _ name value => exact Node.operator?_leaf (lt_maxNames name) (lt_maxValues value)
  | reference _ name other =>
    exact Node.operator?_leaf (lt_maxNames name) (lt_maxValues_of_name other)

theorem leafOperator (h : v.Codes l n) : n.leafOperator = .ok l.comparison.operator := by
  have leaf := h.isLeaf
  rw [Node.leafOperator, h.operator?, Node.isInvalid,
    decide_eq_false (Node.ne_invalid_of_isLeaf leaf), Node.not_isCombined_of_isLeaf leaf,
    Node.not_isConstant_of_isLeaf leaf]
  rfl

theorem decodeLeaf (h : v.Codes l n) : v.decodeLeaf n = .ok l := by
  have op := h.leafOperator
  cases h with
  | check name =>
    have ha := lt_maxNames name
    have h := decodeLeaf_eq_ok op
      (by rw [Node.argument_leaf ha zero_lt_maxValues]; exact name_eq_ok name) rfl
    rwa [Node.isNegated_leaf ha zero_lt_maxValues] at h
  | value ne name value =>
    have ha := lt_maxNames name
    have hx := lt_maxValues value
    have h := decodeLeaf_eq_ok op (by rw [Node.argument_leaf ha hx]; exact name_eq_ok name)
      (operandOf_value ne (Node.hasReference_leaf ha hx)
        (by rw [Node.value_leaf ha hx]; exact value_eq_ok value))
    rwa [Node.isNegated_leaf ha hx] at h
  | reference ne name other =>
    have ha := lt_maxNames name
    have hx := lt_maxValues_of_name other
    have h := decodeLeaf_eq_ok op (by rw [Node.argument_leaf ha hx]; exact name_eq_ok name)
      (operandOf_reference ne (Node.hasReference_leaf ha hx)
        (by rw [Node.value_leaf ha hx]; exact name_eq_ok other))
    rwa [Node.isNegated_leaf ha hx] at h

/-- Flipping bit 0 of a code is the strict negation of the leaf. -/
theorem flip (h : v.Codes l n) : v.Codes l.strictNot n.flip := by
  cases h with
  | check name =>
    rw [Node.flip_leaf (lt_maxNames name) zero_lt_maxValues]
    exact .check name
  | value op name value =>
    rw [Node.flip_leaf (lt_maxNames name) (lt_maxValues value)]
    exact .value op name value
  | reference op name other =>
    rw [Node.flip_leaf (lt_maxNames name) (lt_maxValues_of_name other)]
    exact .reference op name other

theorem holds (h : v.Codes l n) (r : Record) : v.holds r n = l.holds r := by
  rw [Vocabulary.holds, h.decodeLeaf]

theorem word_argument (h : v.Codes l n) :
    v.names.word? n.argument = some l.comparison.argument := by
  cases h with
  | check name => rwa [Node.argument_leaf (lt_maxNames name) zero_lt_maxValues]
  | value _ name value => rwa [Node.argument_leaf (lt_maxNames name) (lt_maxValues value)]
  | reference _ name other =>
    rwa [Node.argument_leaf (lt_maxNames name) (lt_maxValues_of_name other)]

theorem leaf_unique {l' : Leaf} (h : v.Codes l n) (h' : v.Codes l' n) : l = l' := by
  have eq := h.decodeLeaf
  rw [h'.decodeLeaf] at eq
  exact (Except.ok.inj eq).symm

theorem node_unique {n' : Node} (h : v.Codes l n) (h' : v.Codes l n') : n = n' := by
  have eq := h.encodeLeaf
  rw [h'.encodeLeaf] at eq
  exact (Except.ok.inj eq).symm

end Codes

theorem encodes_iff {n : Node} : v.Encodes n ↔ ∃ l, v.Codes l n :=
  ⟨fun ⟨l, h⟩ => ⟨l, codes_of_encodeLeaf h⟩, fun ⟨l, h⟩ => ⟨l, h.encodeLeaf⟩⟩

theorem Encodes.isLeaf {n : Node} (h : v.Encodes n) : n.isLeaf = true := by
  obtain ⟨l, h⟩ := encodes_iff.1 h
  exact h.isLeaf

theorem Encodes.flip {n : Node} (h : v.Encodes n) : v.Encodes n.flip := by
  obtain ⟨l, h⟩ := encodes_iff.1 h
  exact encodes_iff.2 ⟨_, h.flip⟩

/-! ## What leaf codes mean -/

/-- Whether a record knows argument number `a`. -/
def knows (v : Vocabulary) (r : Record) (a : Nat) : Bool := ((v.names.word? a).bind r).isSome

/-- Whether a record knows all arguments of a leaf. -/
def knowsAll (v : Vocabulary) (r : Record) (n : Node) : Bool :=
  v.knows r n.argument && (!n.hasReference || v.knows r n.value)

theorem knows_eq {name : String} {a : Nat} (h : v.names.word? a = some name) (r : Record) :
    v.knows r a = (r name).isSome := by
  rw [knows, h, Option.bind_some]

/-- An unknown check tells whether its argument is known. -/
theorem Encodes.holds_check {n : Node} (h : v.Encodes n) (hn : n.isUnknownCheck = true)
    (r : Record) : n.isReference = false ∧
      v.holds r n = if n.isNegated then v.knows r n.argument else !v.knows r n.argument := by
  obtain ⟨l, h⟩ := encodes_iff.1 h
  rw [h.holds]
  cases h with
  | @check neg _ _ name =>
    have ha := lt_maxNames name
    rw [Node.isReference, Node.hasReference_leaf ha zero_lt_maxValues,
      Node.isNegated_leaf ha zero_lt_maxValues, Node.argument_leaf ha zero_lt_maxValues,
      knows_eq name]
    refine ⟨Bool.and_false _, ?_⟩
    simp only [Leaf.holds]
    cases neg <;> cases r _ <;> rfl
  | value ne name value =>
    rw [Node.isUnknownCheck_leaf (lt_maxNames name) (lt_maxValues value)] at hn
    exact (ne (of_decide_eq_true hn)).elim
  | reference ne name other =>
    rw [Node.isUnknownCheck_leaf (lt_maxNames name) (lt_maxValues_of_name other)] at hn
    exact (ne (of_decide_eq_true hn)).elim

/-- A leaf that compares holds, or its flipped code does, exactly where all its arguments are
known, and never both. -/
theorem Encodes.holds_comparison {n : Node} (h : v.Encodes n) (hn : n.isUnknownCheck = false)
    (r : Record) : (v.holds r n = true → v.knowsAll r n = true) ∧
      v.holds r n.flip = (v.knowsAll r n && !v.holds r n) := by
  obtain ⟨l, h⟩ := encodes_iff.1 h
  rw [h.holds, h.flip.holds]
  cases h with
  | check name =>
    rw [Node.isUnknownCheck_leaf (lt_maxNames name) zero_lt_maxValues] at hn
    exact absurd rfl (of_decide_eq_false hn)
  | @value neg _ op _ _ _ ne name value =>
    have ha := lt_maxNames name
    have hx := lt_maxValues value
    rw [knowsAll, Node.hasReference_leaf ha hx, Node.argument_leaf ha hx, knows_eq name,
      Bool.not_false, Bool.true_or, Bool.and_true, ← Comparison.isSome_holds?_value]
    exact Leaf.holds_strictNot_of_ne ne
  | @reference neg _ op _ _ _ ne name other =>
    have ha := lt_maxNames name
    have hx := lt_maxValues_of_name other
    rw [knowsAll, Node.hasReference_leaf ha hx, Node.argument_leaf ha hx, Node.value_leaf ha hx,
      knows_eq name, knows_eq other, Bool.not_true, Bool.false_or,
      ← Comparison.isSome_holds?_reference]
    exact Leaf.holds_strictNot_of_ne ne

/-- A leaf code and its flip never hold together. -/
theorem Encodes.not_holds_flip {n : Node} (h : v.Encodes n) {r : Record}
    (hr : v.holds r n = true) : v.holds r n.flip = false := by
  obtain ⟨l, h⟩ := encodes_iff.1 h
  rw [h.holds] at hr
  rw [h.flip.holds]
  exact Leaf.not_holds_strictNot r l hr

theorem Encodes.isNegated_flip {n : Node} (h : v.Encodes n) :
    n.flip.isNegated = !n.isNegated ∧ n.flip.isUnknownCheck = n.isUnknownCheck ∧
      n.flip.argument = n.argument := by
  obtain ⟨l, h⟩ := encodes_iff.1 h
  have fields : ∀ {neg ref : Bool} {op : Operator} {a x : Nat}, a < Node.maxNames →
      x < Node.maxValues → let m := Node.leaf neg op ref a x
      m.flip.isNegated = !m.isNegated ∧ m.flip.isUnknownCheck = m.isUnknownCheck ∧
        m.flip.argument = m.argument := fun ha hx => by
    simp only [Node.flip_leaf ha hx, Node.isNegated_leaf ha hx, Node.isUnknownCheck_leaf ha hx,
      Node.argument_leaf ha hx, and_self]
  cases h with
  | check name => exact fields (lt_maxNames name) zero_lt_maxValues
  | value _ name value => exact fields (lt_maxNames name) (lt_maxValues value)
  | reference _ name other => exact fields (lt_maxNames name) (lt_maxValues_of_name other)

/-- Flipping an unknown check turns it into the opposite. -/
theorem Encodes.holds_flip_check {n : Node} (h : v.Encodes n) (hn : n.isUnknownCheck = true)
    (r : Record) : v.holds r n.flip = !v.holds r n := by
  obtain ⟨sign, check, argument⟩ := h.isNegated_flip
  rw [(h.holds_check hn r).2, (h.flip.holds_check (check.trans hn) r).2, sign, argument]
  cases n.isNegated <;> simp

/-- A leaf that requires an argument only holds where it is known. -/
theorem Encodes.knows_of_requires {n : Node} (h : v.Encodes n) {a : Nat} {r : Record}
    (hn : n.requires a = true) (hr : v.holds r n = true) : v.knows r a = true := by
  simp only [Node.requires, Bool.and_eq_true, Bool.or_eq_true, decide_eq_true_eq,
    Bool.not_eq_true', h.isLeaf, true_and] at hn
  obtain ⟨known, args⟩ := hn
  cases check : n.isUnknownCheck with
  | true =>
    obtain ⟨plain, eq⟩ := h.holds_check check r
    rw [Node.isReference, h.isLeaf, Bool.true_and] at plain
    rw [Node.isUnknown, check, Bool.true_and, Bool.not_eq_false'] at known
    rw [eq, known, if_pos rfl] at hr
    rcases args with rfl | ⟨ref, -⟩
    · exact hr
    · rw [plain] at ref
      exact Bool.noConfusion ref
  | false =>
    have all := (h.holds_comparison check r).1 hr
    simp only [knowsAll, Bool.and_eq_true, Bool.or_eq_true, Bool.not_eq_true'] at all
    rcases args with rfl | ⟨ref, rfl⟩
    · exact all.1
    · exact all.2.resolve_left (by simp [ref])

/-- `x IS UNKNOWN` never holds together with a leaf that requires `x`. -/
theorem Encodes.not_holds_of_requires {m n : Node} (hm : v.Encodes m) (hn : v.Encodes n)
    {r : Record} (unknown : m.isUnknown = true) (requires : n.requires m.argument = true)
    (hr : v.holds r m = true) : v.holds r n = false := by
  rw [Node.isUnknown, Bool.and_eq_true, Bool.not_eq_true'] at unknown
  rw [(hm.holds_check unknown.1 r).2, unknown.2, if_neg Bool.false_ne_true,
    Bool.not_eq_true'] at hr
  rw [Bool.eq_false_iff]
  intro holds
  rw [hn.knows_of_requires requires holds] at hr
  exact Bool.noConfusion hr

/-! ## Checks on the arguments of leaf codes -/

theorem encodes_unknownOf {a : Nat} {name : String} (h : v.names.word? a = some name)
    (r : Record) : v.Encodes (.unknownOf a) ∧ v.holds r (.unknownOf a) = !v.knows r a ∧
      v.holds r (Node.unknownOf a).flip = v.knows r a := by
  have code : v.Codes ⟨false, name, .isUnknown, none⟩ (.unknownOf a) := .check h
  refine ⟨encodes_iff.2 ⟨_, code⟩, ?_⟩
  rw [code.holds, code.flip.holds, knows_eq h]
  simp only [Leaf.holds, Leaf.strictNot, Bool.not_false, Bool.decide_eq_true,
    Bool.decide_eq_false, and_self]

/-- An argument has one pair of unknown checks. -/
theorem Encodes.eq_leaf_of_check {n : Node} (h : v.Encodes n) (hn : n.isUnknownCheck = true) :
    n = .leaf n.isNegated .isUnknown false n.argument 0 ∧ n.argument < Node.maxNames := by
  obtain ⟨l, h⟩ := encodes_iff.1 h
  cases h with
  | check name =>
    have ha := lt_maxNames name
    rw [Node.isNegated_leaf ha zero_lt_maxValues, Node.argument_leaf ha zero_lt_maxValues]
    exact ⟨rfl, ha⟩
  | value ne name value =>
    rw [Node.isUnknownCheck_leaf (lt_maxNames name) (lt_maxValues value)] at hn
    exact (ne (of_decide_eq_true hn)).elim
  | reference ne name other =>
    rw [Node.isUnknownCheck_leaf (lt_maxNames name) (lt_maxValues_of_name other)] at hn
    exact (ne (of_decide_eq_true hn)).elim

theorem Encodes.eq_flip_of_known {m n : Node} (hm : v.Encodes m) (hn : v.Encodes n)
    (unknown : m.isUnknown = true) (known : n.isKnown = true) (eq : m.argument = n.argument) :
    n = m.flip := by
  rw [Node.isUnknown, Bool.and_eq_true, Bool.not_eq_true'] at unknown
  rw [Node.isKnown, Bool.and_eq_true] at known
  obtain ⟨hm, ha⟩ := hm.eq_leaf_of_check unknown.1
  obtain ⟨hn, -⟩ := hn.eq_leaf_of_check known.1
  rw [unknown.2] at hm
  rw [known.2, ← eq] at hn
  rw [hm, Node.flip_leaf ha zero_lt_maxValues, hn]
  rfl

/-- Of two checks that an argument is known, one requires only its own argument. -/
theorem Encodes.eq_of_known {m n : Node} (hm : v.Encodes m) (hn : v.Encodes n)
    (known : m.isKnown = true) (known' : n.isKnown = true)
    (requires : m.requires n.argument = true) : m = n := by
  rw [Node.isKnown, Bool.and_eq_true] at known known'
  obtain ⟨eq, ha⟩ := hm.eq_leaf_of_check known.1
  obtain ⟨eq', -⟩ := hn.eq_leaf_of_check known'.1
  have plain : m.hasReference = false := by
    rw [eq, Node.hasReference_leaf ha zero_lt_maxValues]
  rw [Node.requires, plain, Bool.false_and, Bool.or_false, Bool.and_eq_true,
    decide_eq_true_eq] at requires
  rw [eq, eq', known.2, known'.2, requires.2]

theorem Encodes.word_argument {n : Node} (h : v.Encodes n) :
    ∃ name, v.names.word? n.argument = some name := by
  obtain ⟨l, h⟩ := encodes_iff.1 h
  exact ⟨_, h.word_argument⟩

theorem Encodes.word_value {n : Node} (h : v.Encodes n) (ref : n.hasReference = true) :
    ∃ name, v.names.word? n.value = some name := by
  obtain ⟨l, h⟩ := encodes_iff.1 h
  cases h with
  | check name =>
    rw [Node.hasReference_leaf (lt_maxNames name) zero_lt_maxValues] at ref
    exact Bool.noConfusion ref
  | value _ name value =>
    rw [Node.hasReference_leaf (lt_maxNames name) (lt_maxValues value)] at ref
    exact Bool.noConfusion ref
  | reference _ name other =>
    rw [Node.value_leaf (lt_maxNames name) (lt_maxValues_of_name other)]
    exact ⟨_, other⟩

end Vocabulary

end Criteria
