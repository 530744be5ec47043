import Criteria.Proofs.Recall

/-!
# Which codes are read, and what is said of the others

**Theorem (`Arises.decoding_checked`).** A code is read just if it is a constant, or a leaf with the
tag of an operator, the number of a name, and, unless it is an unknown check, the number of a name
or value as operand (`Vocabulary.Reads`). The questions about its parts answer with the fields of
the leaf that it is read as. A code that is not read is refused with the fault of the first check
that finds one, and a question about one part makes the checks on the leaf and on that part alone.

Each question is a chain of steps, and each step makes some checks of its own. So the checks of a
question are those of its steps in order (`RefusedBy.bind`), and each step has one lemma.

All of this is so of a translator with any past (`Translator.Arises`), also one that was asked to
read codes that no leaf has. Such a code spoils what is remembered of the node of a leaf, but not
what is remembered of the leaf of a node (`Translator.Trusted`).
-/

namespace Criteria

/-! ## Checks in order -/

section Checks

variable {α β : Type} {x : Except Fault α} {f : α → Except Fault β}
  {checks more : List (Bool × Fault)}

/-- The fault of the first check that finds one. -/
def firstFault (checks : List (Bool × Fault)) : Option Fault := (checks.find? (·.1)).map (·.2)

theorem firstFault_append (checks more : List (Bool × Fault)) :
    firstFault (checks ++ more) = (firstFault checks).or (firstFault more) := by
  rw [firstFault, List.find?_append, Option.map_or]
  rfl

theorem firstFault_eq_none_iff : firstFault checks = none ↔ ∀ check ∈ checks, check.1 = false := by
  rw [firstFault, Option.map_eq_none_iff, List.find?_eq_none]
  simp only [Bool.not_eq_true]

/-- An answer that is refused just if a check finds a fault, and with the first such fault. -/
def RefusedBy (checks : List (Bool × Fault)) (x : Except Fault α) : Prop :=
  ∀ fault, x = .error fault ↔ firstFault checks = some fault

namespace RefusedBy

theorem ok (a : α) : RefusedBy [] (.ok a) := fun fault => by
  simp [firstFault]

/-- A single check, for something that is not there. -/
theorem ofOption {o : Option α} {fault : Fault} (found : ∀ a, o = some a → x = .ok a)
    (absent : o = none → x = .error fault) : RefusedBy [(o.isNone, fault)] x := fun fault' => by
  cases h : o with
  | some a => simp [firstFault, found a h]
  | none => simp [firstFault, absent h]

/-- A check that is made before all others. -/
theorem guard {b : Bool} {fault : Fault} (h : b = false → RefusedBy checks x) :
    RefusedBy ((b, fault) :: checks) (if b then .error fault else x) := fun fault' => by
  cases b with
  | true => simp [firstFault]
  | false => exact h rfl fault'

theorem eq_none_iff (h : RefusedBy checks x) : firstFault checks = none ↔ ∃ a, x = .ok a := by
  cases run : x with
  | ok a =>
    refine ⟨fun _ => ⟨a, rfl⟩, fun _ => Option.eq_none_iff_forall_ne_some.2 fun fault found => ?_⟩
    rw [(h fault).2 found] at run
    cases run
  | error fault => simp [(h fault).1 run]

/-- An answer is given just if no check finds a fault. -/
theorem exists_ok_iff (h : RefusedBy checks x) :
    (∃ a, x = .ok a) ↔ ∀ check ∈ checks, check.1 = false := by
  rw [← h.eq_none_iff, firstFault_eq_none_iff]

/-- A step that comes second makes its checks second. -/
theorem bind (h : RefusedBy checks x) (h' : ∀ a, x = .ok a → RefusedBy more (f a)) :
    RefusedBy (checks ++ more) (x >>= f) := by
  intro fault
  rw [firstFault_append]
  cases run : x with
  | ok a =>
    rw [h.eq_none_iff.2 ⟨a, run⟩, Option.none_or]
    exact h' a run fault
  | error fault' =>
    rw [(h fault').1 run, Option.some_or, Option.some_inj]
    exact ⟨Except.error.inj, congrArg _⟩

/-- What is made of an answer needs no check. -/
theorem map (h : RefusedBy checks x) (g : α → β) : RefusedBy checks (do return g (← x)) := by
  intro fault
  rw [← h fault]
  cases x with
  | ok a => exact ⟨nofun, nofun⟩
  | error fault' => exact ⟨fun eq => Except.error.inj eq ▸ rfl, fun eq => Except.error.inj eq ▸ rfl⟩

end RefusedBy

end Checks

/-! ## The checks of a code -/

namespace Node

variable {n : Node} {op : Operator}

/-- Whether the tag is that of an operator. -/
def hasTag (n : Node) : Bool := 1 ≤ n.tag && n.tag ≤ 5

/-- What keeps a code from being that of a leaf. -/
def leafChecks (n : Node) : List (Bool × Fault) :=
  [(n.isInvalid, .invalidNode), (n.isCombined, .combinedNode n), (n.isConstant, .constantNode n),
    (!n.hasTag, .unknownTag n)]

theorem isLeaf_iff_sorts :
    n.isLeaf = true ↔ n.isInvalid = false ∧ n.isCombined = false ∧ n.isConstant = false := by
  have lt := n.toNat_lt
  rw [isLeaf_iff, Bool.eq_false_iff, Bool.eq_false_iff, Ne, Ne, isInvalid_iff, isCombined_iff,
    isConstant, decide_eq_false_iff_not]
  omega

theorem isNone_ofTag? (n : Node) : (Operator.ofTag? n.tag).isNone = !n.hasTag := by
  unfold hasTag
  generalize n.tag = t
  match t with
  | 0 | 1 | 2 | 3 | 4 | 5 => rfl
  | t + 6 => simp [Operator.ofTag?]

theorem refusedBy_leafOperator (n : Node) : RefusedBy n.leafChecks n.leafOperator := by
  refine .guard fun invalid => .guard fun combined => .guard fun constant => ?_
  rw [operator?, if_pos (isLeaf_iff_sorts.2 ⟨invalid, combined, constant⟩), ← isNone_ofTag?]
  exact .ofOption (fun op found => by rw [found]) fun absent => by rw [absent]

/-- The operator of a leaf has its tag. -/
theorem tag_of_leafOperator (hop : n.leafOperator = .ok op) : op.tag = n.tag := by
  have leaf := isLeaf_of_leafOperator hop
  obtain ⟨invalid, combined, constant⟩ := isLeaf_iff_sorts.1 leaf
  rw [leafOperator, invalid, combined, constant, operator?, if_pos leaf] at hop
  cases found : Operator.ofTag? n.tag with
  | none =>
    rw [found] at hop
    cases hop
  | some op' =>
    rw [found] at hop
    cases hop
    exact Operator.ofTag?_eq_some_iff.1 found

theorem isUnknown_of_leafOperator (hop : n.leafOperator = .ok op) :
    op = .isUnknown ↔ n.tag = Operator.isUnknown.tag := by
  rw [← tag_of_leafOperator hop]
  cases op <;> decide

end Node

namespace WordList

theorem isNone_word? (l : WordList) (i : Nat) :
    (l.word? i).isNone = decide (l.size ≤ i) := by
  unfold word? size
  by_cases room : i < l.words.size
  · rw [Array.getElem?_eq_getElem room, decide_eq_false (Nat.not_le.2 room)]
    rfl
  · rw [Array.getElem?_eq_none (Nat.not_lt.1 room), decide_eq_true (Nat.not_lt.1 room)]
    rfl

end WordList

namespace Vocabulary

variable {v v' : Vocabulary} {n : Node} {op : Operator} {l : Leaf} {i : Nat} {w : String}

/-- What keeps a number from being that of a name. -/
def nameChecks (v : Vocabulary) (i : Nat) : List (Bool × Fault) :=
  [(v.names.size ≤ i, .nameNumber i)]

/-- What keeps a number from being that of a value. -/
def valueChecks (v : Vocabulary) (i : Nat) : List (Bool × Fault) :=
  [(v.values.size ≤ i, .valueNumber i)]

/-- What can be wrong with the operand. An unknown check has none, whatever its code says. -/
def operandChecks (v : Vocabulary) (n : Node) : List (Bool × Fault) :=
  if n.tag = Operator.isUnknown.tag then []
  else if n.hasReference then v.nameChecks n.value
  else v.valueChecks n.value

/-- What can be wrong with the literal value, which unknown checks and references lack. -/
def literalChecks (v : Vocabulary) (n : Node) : List (Bool × Fault) :=
  if n.tag = Operator.isUnknown.tag || n.hasReference then [] else v.valueChecks n.value

/-- The codes that are read as leaves, field by field. -/
structure Reads (v : Vocabulary) (n : Node) : Prop where
  isLeaf : n.isLeaf = true
  tag : 1 ≤ n.tag ∧ n.tag ≤ 5
  argument : n.argument < v.names.size
  operand : n.tag ≠ Operator.isUnknown.tag →
    n.value < if n.hasReference then v.names.size else v.values.size

/-! ## The steps of reading -/

theorem refusedBy_name (v : Vocabulary) (i : Nat) : RefusedBy (v.nameChecks i) (v.name i) := by
  rw [nameChecks, ← WordList.isNone_word?]
  exact .ofOption (fun _ found => name_eq_ok found) fun absent => by rw [name, absent]

theorem refusedBy_value (v : Vocabulary) (i : Nat) : RefusedBy (v.valueChecks i) (v.value i) := by
  rw [valueChecks, ← WordList.isNone_word?]
  exact .ofOption (fun _ found => value_eq_ok found) fun absent => by rw [value, absent]

theorem refusedBy_operandOf (hop : n.leafOperator = .ok op) :
    RefusedBy (v.operandChecks n) (v.operandOf n op) := by
  rw [operandChecks, operandOf]
  by_cases unknown : op = .isUnknown
  · rw [if_pos unknown, if_pos ((Node.isUnknown_of_leafOperator hop).1 unknown)]
    exact .ok none
  rw [if_neg unknown, if_neg fun same => unknown ((Node.isUnknown_of_leafOperator hop).2 same)]
  cases n.hasReference with
  | true => exact (v.refusedBy_name n.value).map (some <| Operand.reference ·)
  | false => exact (v.refusedBy_value n.value).map (some <| Operand.value ·)

/-- A code is read after the checks on the leaf, on the name and on the operand. -/
theorem refusedBy_decodeLeaf (v : Vocabulary) (n : Node) :
    RefusedBy (n.leafChecks ++ (v.nameChecks n.argument ++ v.operandChecks n)) (v.decodeLeaf n) :=
  n.refusedBy_leafOperator.bind fun op hop => (v.refusedBy_name n.argument).bind fun name _ =>
    (refusedBy_operandOf hop).map fun operand => Leaf.mk n.isNegated ⟨name, op, operand⟩

theorem refusedBy_argumentOf (v : Vocabulary) (n : Node) :
    RefusedBy (n.leafChecks ++ v.nameChecks n.argument) (v.argumentOf n) :=
  n.refusedBy_leafOperator.bind fun _ _ => v.refusedBy_name n.argument

theorem refusedBy_operand (v : Vocabulary) (n : Node) :
    RefusedBy (n.leafChecks ++ v.operandChecks n) (v.operand n) :=
  n.refusedBy_leafOperator.bind fun _ hop => refusedBy_operandOf hop

theorem refusedBy_literal (v : Vocabulary) (n : Node) :
    RefusedBy (n.leafChecks ++ v.literalChecks n) (v.literal n) := by
  refine n.refusedBy_leafOperator.bind fun op hop => ?_
  rw [literalChecks, decide_eq_decide.2 (Node.isUnknown_of_leafOperator hop).symm]
  cases decide (op = .isUnknown) || n.hasReference with
  | true => exact .ok none
  | false => exact (v.refusedBy_value n.value).map some

/-- A code that is not that of a constant is read just if its fields say so. -/
theorem exists_decodeLeaf_iff : (∃ l, v.decodeLeaf n = .ok l) ↔ v.Reads n := by
  rw [(v.refusedBy_decodeLeaf n).exists_ok_iff]
  simp only [List.forall_mem_append]
  have leaf : (∀ check ∈ n.leafChecks, check.1 = false) ↔
      n.isLeaf = true ∧ 1 ≤ n.tag ∧ n.tag ≤ 5 := by
    rw [Node.isLeaf_iff_sorts]
    simp [Node.leafChecks, Node.hasTag, and_assoc]
  have argument : (∀ check ∈ v.nameChecks n.argument, check.1 = false) ↔
      n.argument < v.names.size := by
    simp [nameChecks]
  have operand : (∀ check ∈ v.operandChecks n, check.1 = false) ↔
      (n.tag ≠ Operator.isUnknown.tag →
        n.value < if n.hasReference then v.names.size else v.values.size) := by
    unfold operandChecks
    by_cases unknown : n.tag = Operator.isUnknown.tag
    · simp [unknown]
    · cases n.hasReference <;> simp [unknown, nameChecks, valueChecks]
  rw [leaf, argument, operand]
  exact ⟨fun ⟨⟨leaf, tag⟩, argument, operand⟩ => ⟨leaf, tag, argument, operand⟩,
    fun h => ⟨⟨h.isLeaf, h.tag⟩, h.argument, h.operand⟩⟩

/-! ## The fields of the leaf that is read -/

/-- What the questions about the parts of a code answer where it is read as a leaf. -/
structure Answers (v : Vocabulary) (n : Node) (l : Leaf) : Prop where
  argument : v.argumentOf n = .ok l.comparison.argument
  operator : n.leafOperator = .ok l.comparison.operator
  operand : v.operand n = .ok l.comparison.operand
  literal : v.literal n = .ok l.comparison.value?
  negated : n.isNegation = l.negated

theorem literal_of_operandOf {operand : Option Operand} (hop : n.leafOperator = .ok op)
    (h : v.operandOf n op = .ok operand) :
    v.literal n = .ok (Comparison.value? ⟨w, op, operand⟩) := by
  rw [literal, hop]
  unfold operandOf at h
  by_cases unknown : op = .isUnknown
  · rw [if_pos unknown] at h
    cases h
    subst unknown
    rfl
  rw [if_neg unknown] at h
  show (if decide (op = .isUnknown) || n.hasReference then _ else _) = _
  rw [decide_eq_false unknown, Bool.false_or]
  cases ref : n.hasReference with
  | true =>
    rw [ref] at h
    obtain ⟨name, -, eq⟩ := bind_eq_ok_iff.1 h
    cases eq
    rfl
  | false =>
    rw [ref] at h
    obtain ⟨value, found, eq⟩ := bind_eq_ok_iff.1 h
    cases eq
    show (do return some (← v.value n.value)) = _
    rw [found]
    rfl

/-- The steps of reading a leaf. -/
theorem of_decodeLeaf (h : v.decodeLeaf n = .ok l) :
    n.leafOperator = .ok l.comparison.operator ∧ v.name n.argument = .ok l.comparison.argument ∧
      v.operandOf n l.comparison.operator = .ok l.comparison.operand ∧ n.isNegated = l.negated := by
  obtain ⟨op, hop, h⟩ := bind_eq_ok_iff.1 h
  obtain ⟨name, hname, h⟩ := bind_eq_ok_iff.1 h
  obtain ⟨operand, hoperand, eq⟩ := bind_eq_ok_iff.1 h
  cases eq
  exact ⟨hop, hname, hoperand, rfl⟩

theorem answers_of_decodeLeaf (h : v.decodeLeaf n = .ok l) : v.Answers n l := by
  obtain ⟨hop, hname, hoperand, negated⟩ := of_decodeLeaf h
  exact
    { argument := bind_eq_ok_iff.2 ⟨_, hop, hname⟩
      operator := hop
      operand := bind_eq_ok_iff.2 ⟨_, hop, hoperand⟩
      literal := literal_of_operandOf hop hoperand
      negated := by rw [Node.isNegation, Node.isLeaf_of_leafOperator hop, Bool.true_and, negated] }

/-! ## Vocabularies that go on -/

theorem word?_of_name (found : v.name i = .ok w) : v.names.word? i = some w := by
  unfold name at found
  split at found
  · next word =>
    cases found
    exact word
  · cases found

theorem word?_of_value (found : v.value i = .ok w) : v.values.word? i = some w := by
  unfold value at found
  split at found
  · next word =>
    cases found
    exact word
  · cases found

theorem Within.name (h : v.Within v') (found : v.name i = .ok w) : v'.name i = .ok w :=
  name_eq_ok (h.names (word?_of_name found))

theorem Within.value (h : v.Within v') (found : v.value i = .ok w) : v'.value i = .ok w :=
  value_eq_ok (h.values (word?_of_value found))

theorem Within.operandOf (h : v.Within v') {operand : Option Operand}
    (found : v.operandOf n op = .ok operand) : v'.operandOf n op = .ok operand := by
  unfold Vocabulary.operandOf at *
  split at found
  · next unknown => rwa [if_pos unknown]
  next comparison =>
  rw [if_neg comparison]
  split at found
  · next ref =>
    obtain ⟨name, hname, eq⟩ := bind_eq_ok_iff.1 found
    rw [if_pos ref]
    exact bind_eq_ok_iff.2 ⟨name, h.name hname, eq⟩
  · next literal =>
    obtain ⟨value, hvalue, eq⟩ := bind_eq_ok_iff.1 found
    rw [if_neg literal]
    exact bind_eq_ok_iff.2 ⟨value, h.value hvalue, eq⟩

/-- What is read stays what it is when words are added. -/
theorem Within.decodeLeaf (h : v.Within v') (read : v.decodeLeaf n = .ok l) :
    v'.decodeLeaf n = .ok l := by
  obtain ⟨hop, hname, hoperand, negated⟩ := of_decodeLeaf read
  rw [decodeLeaf_eq_ok hop (h.name hname) (h.operandOf hoperand), negated]

end Vocabulary

/-! ## Translators with any past -/

namespace Translator

variable {t u other : Translator} {l : Leaf} {n : Node}

/-- All translators that there can be: fresh ones, and those that became of others by translating,
whatever they were handed, and by being merged. -/
inductive Arises : Translator → Prop
  | fresh (v : Vocabulary) : Arises (ofVocabulary v)
  | encode {t : Translator} (e : Expression) : Arises t → Arises (after (encode e) t)
  | decode {t : Translator} (n : Node) : Arises t → Arises (after (decode n) t)
  | merge {t other u : Translator} : Arises t → t.merge other = .ok u → Arises u

/-- What is remembered of a node is what it is read as. -/
def Trusted (t : Translator) : Prop :=
  ∀ n l, t.decoded.results[n]? = some l → t.vocabulary.decodeLeaf n = .ok l

theorem Trusted.of_results (h : t.Trusted) (same : u.vocabulary = t.vocabulary)
    (decoded : u.decoded.results = t.decoded.results) : u.Trusted := fun n l found => by
  rw [same]
  exact h n l (decoded ▸ found)

theorem Trusted.remember (h : t.Trusted) (read : t.vocabulary.decodeLeaf n = .ok l) :
    (t.remember l n).Trusted := by
  intro n' l' found
  change (t.decoded.results.insert n l)[n']? = some l' at found
  rw [Std.HashMap.getElem?_insert] at found
  split at found
  · next same =>
    cases found
    exact beq_iff_eq.1 same ▸ read
  · exact h n' l' found

/-- A translator with the words of `t` that remembers what `t` does, and at most one code more with
the leaf that it is read as. -/
inductive Asked (t : Translator) : Translator → Prop
  | counted {u : Translator} : u.vocabulary = t.vocabulary →
      u.decoded.results = t.decoded.results → t.Asked u
  | remembered {u : Translator} {l : Leaf} {n : Node} : u.vocabulary = t.vocabulary →
      u.decoded.results = t.decoded.results → t.vocabulary.decodeLeaf n = .ok l →
      t.Asked (u.remember l n)

theorem Answered.asked (h : t.Answered u) : t.Asked u := by
  cases h with
  | counted same _ decoded => exact .counted same decoded
  | remembered same _ decoded code => exact .remembered same decoded code.decodeLeaf

theorem asked_decodeLeaf (t : Translator) (n : Node) : t.Asked (after (decodeLeaf n) t) := by
  unfold after
  cases hop : n.leafOperator with
  | error fault =>
    rw [decodeLeaf_of_fault hop]
    exact .counted rfl rfl
  | ok op =>
    cases found : t.decoded.results[n]? with
    | some l =>
      rw [decodeLeaf_of_found hop found]
      exact .counted rfl rfl
    | none =>
      rw [decodeLeaf_of_none hop found]
      cases read : t.vocabulary.decodeLeaf n with
      | ok l => exact .remembered rfl rfl read
      | error fault => exact .counted rfl rfl

theorem asked_decode (t : Translator) (n : Node) : t.Asked (after (decode n) t) := by
  unfold decode
  split
  · exact .counted rfl rfl
  split
  · exact .counted rfl rfl
  · rw [after_bind_pure]
    exact asked_decodeLeaf t n

theorem Asked.vocabulary_eq (h : t.Asked u) : u.vocabulary = t.vocabulary := by
  cases h with
  | counted same _ => exact same
  | remembered same _ _ => exact same

theorem Asked.trusted (asked : t.Asked u) (h : t.Trusted) : u.Trusted := by
  cases asked with
  | counted same decoded => exact h.of_results same decoded
  | remembered same decoded read => exact (h.of_results same decoded).remember (same ▸ read)

theorem Trusted.merge (h : t.Trusted) (run : t.merge other = .ok u) : u.Trusted := by
  obtain ⟨v, merged, eq⟩ := bind_eq_ok_iff.1 run
  cases eq
  exact fun n l found => (Vocabulary.within_merge merged).decodeLeaf (h n l found)

/-- Whatever the past, what is remembered of a node is what it is read as. -/
theorem Arises.trusted (h : t.Arises) : t.Trusted := by
  induction h with
  | fresh v => exact fun n l found => by simp [ofVocabulary, Memo.empty] at found
  | encode e _ ih => exact (answered_encode _ e).asked.trusted ih
  | decode n _ ih => exact (asked_decode _ n).trusted ih
  | merge _ run ih => exact ih.merge run

/-- A node is read by the vocabulary, whether it is remembered or not. -/
theorem Trusted.outcome_decodeLeaf (h : t.Trusted) (n : Node) :
    outcome (Translator.decodeLeaf n) t = t.vocabulary.decodeLeaf n := by
  unfold outcome
  cases hop : n.leafOperator with
  | error fault =>
    rw [decodeLeaf_of_fault hop, Vocabulary.decodeLeaf, hop]
    rfl
  | ok op =>
    cases found : t.decoded.results[n]? with
    | some l => rw [decodeLeaf_of_found hop found, h n l found]
    | none =>
      rw [decodeLeaf_of_none hop found]
      cases t.vocabulary.decodeLeaf n <;> rfl

theorem outcome_decode_of_isConstant (constant : n.isConstant = true) :
    ∃ c, outcome (decode n) t = .ok (.constant c) ∧ n = .ofConstant c := by
  rcases Node.isConstant_iff.1 constant with rfl | rfl
  · exact ⟨.all, rfl, rfl⟩
  · exact ⟨.none, rfl, rfl⟩

theorem Trusted.outcome_decode (h : t.Trusted) (comparison : n.isConstant = false) :
    outcome (Translator.decode n) t = (t.vocabulary.decodeLeaf n).map .leaf := by
  have ne : ¬ (n = .all ∨ n = .none) := by
    rw [← Node.isConstant_iff, comparison]
    exact Bool.false_ne_true
  rw [Translator.decode, if_neg fun eq => ne (.inl eq), if_neg fun eq => ne (.inr eq),
    outcome_bind_pure, h.outcome_decodeLeaf]

/-- **Reading and asking agree.** A code is read just if it is a constant or its fields are those of
a leaf over the vocabulary. The questions about its parts answer with the fields of that leaf. Where
it is not read, reading and each question are refused with the first fault that their checks find,
whatever the translator did before. -/
theorem Arises.decoding_checked (past : t.Arises) (n : Node) :
    ((∃ e, outcome (Translator.decode n) t = .ok e) ↔ n.isConstant = true ∨ t.vocabulary.Reads n) ∧
    (n.isConstant = true →
      ∃ c, outcome (Translator.decode n) t = .ok (.constant c) ∧ n = .ofConstant c) ∧
    (n.isConstant = false → ∀ e, outcome (Translator.decode n) t = .ok e →
      ∃ l, e = .leaf l ∧ t.vocabulary.Answers n l) ∧
    (n.isConstant = false → RefusedBy
      (n.leafChecks ++ (t.vocabulary.nameChecks n.argument ++ t.vocabulary.operandChecks n))
      (outcome (Translator.decode n) t)) ∧
    RefusedBy n.leafChecks n.leafOperator ∧
    RefusedBy (n.leafChecks ++ t.vocabulary.nameChecks n.argument) (t.vocabulary.argumentOf n) ∧
    RefusedBy (n.leafChecks ++ t.vocabulary.operandChecks n) (t.vocabulary.operand n) ∧
    RefusedBy (n.leafChecks ++ t.vocabulary.literalChecks n) (t.vocabulary.literal n) := by
  have trusted := past.trusted
  have refused := t.vocabulary.refusedBy_decodeLeaf n
  refine ⟨?succeeds, outcome_decode_of_isConstant, ?fields, ?faults, n.refusedBy_leafOperator,
    t.vocabulary.refusedBy_argumentOf n, t.vocabulary.refusedBy_operand n,
    t.vocabulary.refusedBy_literal n⟩
  case succeeds =>
    cases constant : n.isConstant with
    | true =>
      obtain ⟨c, run, -⟩ := outcome_decode_of_isConstant (t := t) constant
      exact ⟨fun _ => .inl rfl, fun _ => ⟨_, run⟩⟩
    | false =>
      rw [← Vocabulary.exists_decodeLeaf_iff, trusted.outcome_decode constant,
        ← refused.eq_none_iff, or_iff_right Bool.false_ne_true]
      exact (refused.map Expression.leaf).eq_none_iff.symm
  case fields =>
    intro comparison e run
    rw [trusted.outcome_decode comparison] at run
    cases read : t.vocabulary.decodeLeaf n with
    | ok l =>
      rw [read] at run
      cases run
      exact ⟨l, rfl, Vocabulary.answers_of_decodeLeaf read⟩
    | error fault =>
      rw [read] at run
      cases run
  case faults =>
    intro comparison
    rw [trusted.outcome_decode comparison]
    exact refused.map Expression.leaf

end Translator

/-! ## A sample -/

namespace Sample

open Translator

/-- A code that is read as `a IS UNKNOWN`, with a bit set that no unknown check has. -/
def stray : Node := .leaf false .isUnknown false 0 1

/-- A code that compares `a` with value number 5. -/
def stale : Node := .leaf false .equals false 0 5

/-- The translator that was asked for the stray code. -/
def misled : Translator := after (decode stray) (ofVocabulary vocabulary)

/-- The stray code is read as the unknown check that it is, and the stale code is refused for its
value, though its argument is told. -/
theorem stale_refused : misled.Arises ∧ (∃ e, outcome (decode stray) misled = .ok e) ∧
    outcome (decode stale) misled = .error (.valueNumber 5) ∧
    misled.vocabulary.operand stale = .error (.valueNumber 5) ∧
    misled.vocabulary.argumentOf stale = .ok "a" := by
  have past : misled.Arises := .decode stray (.fresh vocabulary)
  have same : misled.vocabulary = vocabulary := (asked_decode _ stray).vocabulary_eq
  obtain ⟨succeeds, -⟩ := past.decoding_checked stray
  obtain ⟨-, -, -, faults, -, -, operand, -⟩ := past.decoding_checked stale
  rw [same] at succeeds faults operand ⊢
  exact ⟨past, succeeds.2 (.inr ⟨by decide, by decide, by decide, by decide⟩),
    (faults (by decide) _).2 (by decide), (operand _).2 (by decide), rfl⟩

end Sample

end Criteria
