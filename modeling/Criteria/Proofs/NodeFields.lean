import Criteria.Fault

/-!
# The fields of nodes

A node made from fields has these fields, as long as they fit, and the four sorts of nodes exclude
each other. Leaves and constants are negated by flipping bit 0. Everything is arithmetic on the code
as a natural number.

Main statements: the `Node.leaf` and `Node.combined` sections, `flip_leaf` and `negate_eq_ok_iff`.
-/

namespace Criteria

namespace Node

/-! ## Codes as numbers -/

theorem toNat_lt (n : Node) : n.toNat < 4294967296 := n.code.toNat_lt

theorem toNat_inj {a b : Node} : a.toNat = b.toNat ↔ a = b := by
  cases a; cases b
  simp [toNat, UInt32.toNat_inj]

theorem toNat_ofNat {c : Nat} (h : c < 4294967296) : (ofNat c).toNat = c := by
  simp only [toNat, ofNat, UInt32.toNat_ofNat']
  omega

@[simp] theorem toNat_all : all.toNat = 0 := rfl

@[simp] theorem toNat_none : none.toNat = 1 := rfl

@[simp] theorem toNat_invalid : invalid.toNat = 4294967295 := rfl

theorem isInvalid_iff {n : Node} : n.isInvalid = true ↔ n.toNat = 4294967295 := by
  rw [isInvalid, decide_eq_true_eq, ← toNat_inj, toNat_invalid]

theorem isConstant_iff {n : Node} : n.isConstant = true ↔ n = all ∨ n = none := by
  rw [isConstant, decide_eq_true_eq, ← toNat_inj, ← toNat_inj, toNat_all, toNat_none]
  omega

theorem isLeaf_iff {n : Node} : n.isLeaf = true ↔ 1 < n.toNat ∧ n.toNat < 2147483648 := by
  simp [isLeaf]

theorem isCombined_iff {n : Node} :
    n.isCombined = true ↔ 2147483648 ≤ n.toNat ∧ n.toNat < 4294967295 := by
  have := n.toNat_lt
  rw [isCombined, Bool.and_eq_true, decide_eq_true_eq, Bool.not_eq_true',
    Bool.eq_false_iff, Ne, isInvalid_iff]
  omega

theorem toNat_flip (n : Node) :
    n.flip.toNat = if n.toNat % 2 = 0 then n.toNat + 1 else n.toNat - 1 := by
  have lt := n.toNat_lt
  unfold flip
  split
  · unfold toNat at *
    rw [UInt32.toNat_add, UInt32.toNat_one]
    exact Nat.mod_eq_of_lt (by omega)
  · next odd =>
    have pos : 1 ≤ n.code.toNat := by unfold toNat at odd; omega
    exact UInt32.toNat_sub_of_le _ _ (UInt32.le_iff_toNat_le.2 pos)

theorem flip_flip (n : Node) : n.flip.flip = n := by
  rw [← toNat_inj, toNat_flip, toNat_flip]
  by_cases even : n.toNat % 2 = 0
  · have odd : ¬ (n.toNat + 1) % 2 = 0 := by omega
    rw [if_pos even, if_neg odd]
    omega
  · have even' : (n.toNat - 1) % 2 = 0 := by omega
    rw [if_neg even, if_pos even']
    omega

/-! ## Sorts of nodes -/

theorem not_isCombined_of_isLeaf {n : Node} (h : n.isLeaf = true) : n.isCombined = false := by
  rw [Bool.eq_false_iff, Ne, isCombined_iff]
  rw [isLeaf_iff] at h
  omega

theorem isLeaf_of_isCombined {n : Node} (h : n.isCombined = true) : n.isLeaf = false := by
  rw [Bool.eq_false_iff]
  intro leaf
  rw [not_isCombined_of_isLeaf leaf] at h
  cases h

theorem not_isConstant_of_isLeaf {n : Node} (h : n.isLeaf = true) : n.isConstant = false := by
  rw [isLeaf_iff] at h
  simp only [isConstant, decide_eq_false_iff_not]
  omega

theorem not_isConstant_of_isCombined {n : Node} (h : n.isCombined = true) :
    n.isConstant = false := by
  rw [isCombined_iff] at h
  simp only [isConstant, decide_eq_false_iff_not]
  omega

theorem not_isCombined_of_isConstant {n : Node} (h : n.isConstant = true) :
    n.isCombined = false := by
  rw [Bool.eq_false_iff]
  intro comb
  rw [not_isConstant_of_isCombined comb] at h
  cases h

theorem ne_constant_of_plain {n : Node} (h : n.isConstant = false) : n ≠ all ∧ n ≠ none := by
  constructor <;> rintro rfl <;> cases h

theorem ne_constant_of_isLeaf {n : Node} (h : n.isLeaf = true) : n ≠ all ∧ n ≠ none :=
  ne_constant_of_plain (not_isConstant_of_isLeaf h)

theorem ne_invalid_of_isLeaf {n : Node} (h : n.isLeaf = true) : n ≠ invalid := by
  rw [isLeaf_iff] at h
  rintro rfl
  simp at h

theorem isLeaf_of_isUnknownCheck {n : Node} (h : n.isUnknownCheck = true) : n.isLeaf = true := by
  rw [isUnknownCheck, Bool.and_eq_true] at h
  exact h.1

theorem isUnknownCheck_of_isUnknown {n : Node} (h : n.isUnknown = true) :
    n.isUnknownCheck = true := by
  rw [isUnknown, Bool.and_eq_true] at h
  exact h.1

theorem isUnknownCheck_of_isKnown {n : Node} (h : n.isKnown = true) : n.isUnknownCheck = true := by
  rw [isKnown, Bool.and_eq_true] at h
  exact h.1

theorem isLeaf_of_requires {n : Node} {x : Nat} (h : n.requires x = true) : n.isLeaf = true := by
  rw [requires, Bool.and_eq_true, Bool.and_eq_true] at h
  exact h.1.1

theorem ne_constant_of_connective? {n : Node} {k : Connective} (h : n.connective? = some k) :
    n ≠ all ∧ n ≠ none := by
  constructor <;> rintro rfl <;> cases h

theorem ne_invalid_of_isCombined {n : Node} (h : n.isCombined = true) : n ≠ invalid := by
  rw [isCombined_iff] at h
  rintro rfl
  simp at h

theorem connective?_eq_none_iff {n : Node} : n.connective? = .none ↔ n.isCombined = false := by
  unfold connective?
  cases n.isCombined <;> simp
  split <;> simp

theorem listNumber_of_isCombined {n : Node} (h : n.isCombined = true) :
    n.listNumber = .ok n.number := by
  rw [listNumber, isInvalid, decide_eq_false (ne_invalid_of_isCombined h), h]
  rfl

theorem exists_connective? {n : Node} (h : n.isCombined = true) :
    ∃ k, n.connective? = some k := by
  rcases hk : n.connective? with _ | k
  · rw [connective?_eq_none_iff, h] at hk
    exact Bool.noConfusion hk
  · exact ⟨k, rfl⟩

theorem isLeaf_flip {n : Node} (h : n.isLeaf = true) : n.flip.isLeaf = true := by
  rw [isLeaf_iff] at h ⊢
  rw [toNat_flip]
  split <;> omega

theorem flip_ne {n : Node} (h : n.isLeaf = true) : n.flip ≠ n := by
  rw [isLeaf_iff] at h
  rw [Ne, ← toNat_inj, toNat_flip]
  split <;> omega

/-- Flipping an unknown check turns it into the opposite. -/
theorem isUnknown_flip {n : Node} (h : n.isUnknownCheck = true) : n.flip.isUnknown = n.isKnown := by
  have leaf := isLeaf_flip (isLeaf_of_isUnknownCheck h)
  have tag : n.flip.tag = n.tag := by
    rw [Node.tag, Node.tag, toNat_flip]
    split <;> omega
  have sign : n.flip.isNegated = !n.isNegated := by
    rw [isNegated, isNegated, toNat_flip, ← decide_not, decide_eq_decide]
    split <;> omega
  have check : n.flip.isUnknownCheck = true := by
    rw [isUnknownCheck, Bool.and_eq_true] at h ⊢
    rw [tag]
    exact ⟨leaf, h.2⟩
  rw [isUnknown, isKnown, h, check, sign, Bool.not_not]

theorem isAnd_iff {n : Node} : n.isAnd = true ↔ n.connective? = some .and := by
  simp [isAnd]

theorem isOr_iff {n : Node} : n.isOr = true ↔ n.connective? = some .or := by
  simp [isOr]

/-! ## Combined nodes -/

theorem toNat_combined {k : Connective} {id : Nat} (h : id ≤ maxNumber) :
    (combined k id).toNat = (if k = .and then 2147483648 else 3221225472) + id := by
  unfold maxNumber at h
  cases k <;> simp only [combined] <;> rw [toNat_ofNat (by omega)] <;> simp

theorem connective?_combined {k : Connective} {id : Nat} (h : id ≤ maxNumber) :
    (combined k id).connective? = some k := by
  have number := toNat_combined (k := k) h
  unfold maxNumber at h
  have comb : (combined k id).isCombined = true := by
    rw [isCombined_iff, number]
    cases k <;> simp <;> omega
  rw [connective?, if_pos comb, number]
  cases k
  · rw [if_neg (by simp; omega)]
  · rw [if_pos (by simp; omega)]

theorem number_combined {k : Connective} {id : Nat} (h : id ≤ maxNumber) :
    (combined k id).number = id := by
  have number := toNat_combined (k := k) h
  unfold maxNumber at h
  rw [Node.number, number]
  cases k <;> simp <;> omega

/-- A combined node is made of its connective and its number. -/
theorem combined_number {n : Node} {k : Connective} (h : n.connective? = some k) :
    combined k n.number = n := by
  have comb := isCombined_iff.1 (isCombined_of_connective? h)
  rw [connective?, if_pos (isCombined_of_connective? h)] at h
  rw [← toNat_inj]
  split at h
  · next odd =>
    cases h
    simp only [combined]
    rw [toNat_ofNat (by unfold number; omega), number]
    omega
  · next even =>
    cases h
    simp only [combined]
    rw [toNat_ofNat (by unfold number; omega), number]
    omega

/-! ## Leaves -/

/-- The code of a leaf with fields that fit. -/
theorem toNat_leaf {neg ref : Bool} {op : Operator} {a x : Nat} (ha : a < maxNames)
    (hx : x < maxValues) : (leaf neg op ref a x).toNat =
      x * 131072 + a * 32 + (if ref then 16 else 0) + op.tag * 2 + if neg then 1 else 0 := by
  unfold maxNames at ha
  unfold maxValues at hx
  have tag : op.tag ≤ 5 := by cases op <;> decide
  apply toNat_ofNat
  split <;> split <;> omega

section Leaf

variable {neg ref : Bool} {op : Operator} {a x : Nat}

theorem isLeaf_leaf (ha : a < maxNames) (hx : x < maxValues) :
    (leaf neg op ref a x).isLeaf = true := by
  rw [isLeaf_iff, toNat_leaf ha hx]
  unfold maxNames at ha
  unfold maxValues at hx
  have tag : 1 ≤ op.tag ∧ op.tag ≤ 5 := by cases op <;> decide
  split <;> split <;> omega

theorem toNat_leaf_mod_two (ha : a < maxNames) (hx : x < maxValues) :
    (leaf neg op ref a x).toNat % 2 = if neg then 1 else 0 := by
  rw [toNat_leaf ha hx]
  cases ref <;> cases neg <;> simp only [if_true, if_false, Bool.false_eq_true] <;> omega

theorem isNegated_leaf (ha : a < maxNames) (hx : x < maxValues) :
    (leaf neg op ref a x).isNegated = neg := by
  rw [isNegated, toNat_leaf_mod_two ha hx]
  cases neg <;> rfl

theorem tag_leaf (ha : a < maxNames) (hx : x < maxValues) :
    (leaf neg op ref a x).tag = op.tag := by
  have tag : op.tag ≤ 5 := by cases op <;> decide
  rw [Node.tag, toNat_leaf ha hx]
  split <;> split <;> omega

theorem operator?_leaf (ha : a < maxNames) (hx : x < maxValues) :
    (leaf neg op ref a x).operator? = some op := by
  rw [operator?, if_pos (isLeaf_leaf ha hx), tag_leaf ha hx, Operator.ofTag?_eq_some_iff]

theorem hasReference_leaf (ha : a < maxNames) (hx : x < maxValues) :
    (leaf neg op ref a x).hasReference = ref := by
  have tag : op.tag ≤ 5 := by cases op <;> decide
  rw [hasReference, toNat_leaf ha hx]
  cases ref <;> simp <;> split <;> omega

theorem argument_leaf (ha : a < maxNames) (hx : x < maxValues) :
    (leaf neg op ref a x).argument = a := by
  have tag : op.tag ≤ 5 := by cases op <;> decide
  rw [argument, toNat_leaf ha hx]
  unfold maxNames at ha
  split <;> split <;> omega

theorem value_leaf (ha : a < maxNames) (hx : x < maxValues) :
    (leaf neg op ref a x).value = x := by
  have tag : op.tag ≤ 5 := by cases op <;> decide
  rw [value, toNat_leaf ha hx]
  unfold maxNames at ha
  unfold maxValues at hx
  split <;> split <;> omega

theorem isUnknownCheck_leaf (ha : a < maxNames) (hx : x < maxValues) :
    (leaf neg op ref a x).isUnknownCheck = decide (op = .isUnknown) := by
  rw [isUnknownCheck, isLeaf_leaf ha hx, tag_leaf ha hx, Bool.true_and]
  cases op <;> decide

/-- Flipping bit 0 negates a leaf. -/
theorem flip_leaf (ha : a < maxNames) (hx : x < maxValues) :
    (leaf neg op ref a x).flip = leaf (!neg) op ref a x := by
  have sign := @toNat_leaf_mod_two neg ref op a x ha hx
  rw [← toNat_inj, toNat_flip, sign]
  cases neg
  · simp only [toNat_leaf ha hx, Bool.not_false, Bool.false_eq_true, if_true, if_false]
  · simp only [toNat_leaf ha hx, Bool.not_true, Bool.false_eq_true, if_true, if_false,
      Nat.one_ne_zero]
    omega

/-- Whether an argument is unknown is asked by a leaf, whatever the number of the argument. -/
theorem isLeaf_unknownOf (ha : a < maxValues) : (unknownOf a).isLeaf = true := by
  unfold maxValues at ha
  have number : (unknownOf a).toNat = a * 32 + 2 * Operator.isUnknown.tag := by
    unfold unknownOf leaf
    rw [toNat_ofNat (by simp [Operator.tag]; omega)]
    simp [Operator.tag]
  rw [isLeaf_iff, number]
  simp only [Operator.tag]
  omega

theorem isLeaf_flip_unknownOf (ha : a < maxValues) : (unknownOf a).flip.isLeaf = true :=
  isLeaf_flip (isLeaf_unknownOf ha)

end Leaf

@[simp] theorem flip_all : all.flip = none := rfl

@[simp] theorem flip_none : none.flip = all := rfl

/-! ## Negation -/

theorem negate_eq_ok_iff {n m : Node} :
    n.negate = .ok m ↔ n.toNat < 2147483648 ∧ m = n.flip := by
  unfold negate
  by_cases invalid : n.isInvalid = true
  · rw [if_pos invalid]
    simp [isInvalid_iff.1 invalid]
  · rw [if_neg invalid]
    by_cases comb : n.isCombined = true
    · rw [if_pos comb]
      have := (isCombined_iff.1 comb).1
      simp [Nat.not_lt.2 this]
    · have lt := n.toNat_lt
      rw [if_neg comb]
      rw [isInvalid_iff] at invalid
      rw [isCombined_iff] at comb
      have small : n.toNat < 2147483648 := by omega
      simp [small, eq_comm]

/-- Negating twice gives the node back. -/
theorem negate_of_negate {n m : Node} (h : n.negate = .ok m) : m.negate = .ok n := by
  obtain ⟨small, rfl⟩ := negate_eq_ok_iff.1 h
  rw [negate_eq_ok_iff]
  refine ⟨?_, n.flip_flip.symm⟩
  rw [toNat_flip]
  by_cases even : n.toNat % 2 = 0
  · rw [if_pos even]
    omega
  · rw [if_neg even]
    omega

theorem negate_of_isLeaf {n : Node} (h : n.isLeaf = true) : n.negate = .ok n.flip :=
  negate_eq_ok_iff.2 ⟨(isLeaf_iff.1 h).2, rfl⟩

/-- Constants and unknown checks can be negated. -/
theorem negate_of_decidable {n : Node} (h : n.isConstant = true ∨ n.isUnknownCheck = true) :
    n.negate = .ok n.flip := by
  rcases h with constant | check
  · rcases isConstant_iff.1 constant with rfl | rfl
    · exact negate_eq_ok_iff.2 ⟨by decide, rfl⟩
    · exact negate_eq_ok_iff.2 ⟨by decide, rfl⟩
  · exact negate_of_isLeaf (Bool.and_eq_true _ _ ▸ check).1

end Node

end Criteria
