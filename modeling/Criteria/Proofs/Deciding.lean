import Criteria.Proofs.Session

/-!
# Deciding a list and advising on two members

Whether a list decides the whole is asked in two ways. Building a node scans the list, by looking
up the negation of each leaf and the leaves that need an argument which is said to be unknown. The
passes compare two members at a time, by cases on the two.

**Theorem (`Store.decided_by_two`).** On ascending lists without constants the two ways agree. A
list has a contradiction just if two of its leaves contradict each other, which is just if the
advice on two leaves of an AND is that it never holds; and it has a tautology just if the advice on
two members of an OR is that it always holds.

Both scans come down to what the codes of two leaves say (`hasContradiction_iff`,
`hasTautology_iff`). So does the advice (`advise_and_eq_neverTrue_iff`,
`advise_or_eq_alwaysTrue_iff`), as what is left to implications never decides the whole
(`mem_of_adviseImplied`). The two are never the same leaf, since no leaf conflicts with itself.
Whether the codes can be decoded plays no part in it, so neither do valid nodes.
-/

namespace Criteria

variable {s : Store} {l : List Node} {a b n : Node}

/-! ## Scanning a list -/

/-- A list has a contradiction just if two of its leaves conflict. -/
theorem hasContradiction_iff (asc : Ascending l) : hasContradiction l = true ↔
    ∃ a ∈ l, ∃ b ∈ l, a.isLeaf = true ∧ b.isLeaf = true ∧ a.conflicts b = true := by
  simp only [hasContradiction, List.any_eq_true, Bool.and_eq_true, Bool.or_eq_true,
    Ascending.contains_iff_mem asc, Node.conflicts, decide_eq_true_eq]
  constructor
  · rintro ⟨m, hm, leaf, flip | ⟨unknown, m', hm', requires⟩⟩
    · exact ⟨m, hm, m.flip, flip, leaf, Node.isLeaf_flip leaf, .inl (.inl rfl)⟩
    · exact ⟨m, hm, m', hm', leaf, Node.isLeaf_of_requires requires,
        .inl (.inr ⟨unknown, requires⟩)⟩
  · rintro ⟨a, ha, b, hb, leaf, leaf', (rfl | ⟨unknown, requires⟩) | ⟨unknown, requires⟩⟩
    · exact ⟨a, ha, leaf, .inl hb⟩
    · exact ⟨a, ha, leaf, .inr ⟨unknown, b, hb, requires⟩⟩
    · exact ⟨b, hb, leaf', .inr ⟨unknown, a, ha, requires⟩⟩

/-- A list has a tautology just if it has an unknown check and its negation. -/
theorem hasTautology_iff (asc : Ascending l) :
    hasTautology l = true ↔ ∃ m ∈ l, m.isUnknownCheck = true ∧ m.flip ∈ l := by
  simp only [hasTautology, List.any_eq_true, Bool.and_eq_true, Ascending.contains_iff_mem asc]
  constructor
  · rintro ⟨m, hm, unknown, flip⟩
    exact ⟨m, hm, Node.isUnknownCheck_of_isUnknown unknown, flip⟩
  · rintro ⟨m, hm, check, flip⟩
    cases unknown : m.isUnknown with
    | true => exact ⟨m, hm, unknown, flip⟩
    | false =>
      have known : m.isKnown = true := by
        rw [Node.isUnknown, check, Bool.true_and, Bool.not_eq_false'] at unknown
        rw [Node.isKnown, check, unknown]
        rfl
      exact ⟨m.flip, flip, (Node.isUnknown_flip check).trans known, by rwa [Node.flip_flip]⟩

/-! ## Advising on two members -/

/-- No leaf conflicts with itself. -/
theorem Node.conflicts_self (leaf : n.isLeaf = true) : n.conflicts n = false := by
  have ne := (flip_ne leaf).symm
  cases unknown : n.isUnknown <;> simp [conflicts, requires, unknown, ne]

namespace Store

/-- Two leaves are advised never to hold in an AND just if they conflict. -/
theorem advise_and_eq_neverTrue_iff (leaf : a.isLeaf = true) (leaf' : b.isLeaf = true) :
    s.advise .and a b = .ok .neverTrue ↔ a.conflicts b = true := by
  rw [advise_and_of_plain (Node.not_isConstant_of_isLeaf leaf)
    (Node.not_isConstant_of_isLeaf leaf'), contradicts_leaf leaf leaf', leaf, Bool.true_and]
  by_cases same : a = b
  · subst same
    simp [Node.conflicts_self leaf]
  rw [if_neg same]
  by_cases twins : b = a.flip
  · simp [twins, Node.conflicts]
  rw [if_neg (by simpa using twins)]
  cases a.conflicts b with
  | true => simp [bind, Except.bind, pure, Except.pure]
  | false =>
    have kept : s.adviseImplied .and a b ≠ .ok .neverTrue := fun h =>
      absurd (mem_of_adviseImplied h) (by decide)
    simpa [bind, Except.bind] using kept

/-- Two members are advised to hold always in an OR just if they are an unknown check and its
negation. -/
theorem advise_or_eq_alwaysTrue_iff (plain : a.isConstant = false) (plain' : b.isConstant = false) :
    s.advise .or a b = .ok .alwaysTrue ↔ a.isUnknownCheck = true ∧ b = a.flip := by
  have kept : s.adviseImplied .or a b ≠ .ok .alwaysTrue := fun h =>
    absurd (mem_of_adviseImplied h) (by decide)
  rw [advise_or_of_plain plain plain']
  constructor
  · intro h
    split at h
    · cases h
    split at h
    · next twins =>
      rw [Bool.and_eq_true, decide_eq_true_eq] at twins
      split at h
      · next check => exact ⟨check, twins.2⟩
      · cases h
    · exact (kept h).elim
  · rintro ⟨check, rfl⟩
    have leaf := Node.isLeaf_of_isUnknownCheck check
    rw [if_neg (Node.flip_ne leaf).symm, if_pos (by simp [leaf]), if_pos check]

/-- On ascending lists without constants, the scan for what decides a list and the advice on two of
its members agree. -/
theorem decided_by_two (s : Store) (asc : Ascending l) (plain : ∀ n ∈ l, n.isConstant = false) :
    (hasContradiction l = true ↔ ∃ a ∈ l, ∃ b ∈ l, a ≠ b ∧ a.isLeaf = true ∧ b.isLeaf = true ∧
      s.contradicts a b = .ok true) ∧
    (hasContradiction l = true ↔ ∃ a ∈ l, ∃ b ∈ l, a ≠ b ∧ a.isLeaf = true ∧ b.isLeaf = true ∧
      s.advise .and a b = .ok .neverTrue) ∧
    (hasTautology l = true ↔ ∃ a ∈ l, ∃ b ∈ l, a ≠ b ∧ s.advise .or a b = .ok .alwaysTrue) := by
  have distinct : ∀ {a b : Node}, a.isLeaf = true → a.conflicts b = true → a ≠ b := by
    rintro a _ leaf conflict rfl
    rw [Node.conflicts_self leaf] at conflict
    cases conflict
  refine ⟨(hasContradiction_iff asc).trans ?_, (hasContradiction_iff asc).trans ?_,
    (hasTautology_iff asc).trans ?_⟩
  · constructor
    · rintro ⟨a, ha, b, hb, leaf, leaf', conflict⟩
      refine ⟨a, ha, b, hb, distinct leaf conflict, leaf, leaf', ?_⟩
      rw [contradicts_leaf leaf leaf', conflict]
    · rintro ⟨a, ha, b, hb, -, leaf, leaf', contradicts⟩
      rw [contradicts_leaf leaf leaf'] at contradicts
      exact ⟨a, ha, b, hb, leaf, leaf', Except.ok.inj contradicts⟩
  · constructor
    · rintro ⟨a, ha, b, hb, leaf, leaf', conflict⟩
      exact ⟨a, ha, b, hb, distinct leaf conflict, leaf, leaf',
        (advise_and_eq_neverTrue_iff leaf leaf').2 conflict⟩
    · rintro ⟨a, ha, b, hb, -, leaf, leaf', never⟩
      exact ⟨a, ha, b, hb, leaf, leaf', (advise_and_eq_neverTrue_iff leaf leaf').1 never⟩
  · constructor
    · rintro ⟨m, hm, check, flip⟩
      have ne := Node.flip_ne (Node.isLeaf_of_isUnknownCheck check)
      exact ⟨m, hm, m.flip, flip, ne.symm,
        (advise_or_eq_alwaysTrue_iff (plain m hm) (plain _ flip)).2 ⟨check, rfl⟩⟩
    · rintro ⟨a, ha, b, hb, -, always⟩
      obtain ⟨check, rfl⟩ := (advise_or_eq_alwaysTrue_iff (plain a ha) (plain b hb)).1 always
      exact ⟨a, ha, check, hb⟩

end Store

namespace Sample

/-- `a = x`, `a IS UNKNOWN` and `a IS NOT UNKNOWN` decide both an AND and an OR, and two of them do.
Without `a IS UNKNOWN` nothing is decided, and no two members are advised to decide anything. -/
theorem unknown_decides :
    (Ascending [equal, known.flip, known] ∧ Ascending [equal, known, both]) ∧
    (∀ n ∈ [equal, known.flip, known, both], n.isConstant = false) ∧
    hasContradiction [equal, known.flip, known] = true ∧
    (∃ a ∈ [equal, known.flip, known], ∃ b ∈ [equal, known.flip, known], a ≠ b ∧
      a.isLeaf = true ∧ b.isLeaf = true ∧ store.contradicts a b = .ok true) ∧
    hasTautology [equal, known.flip, known] = true ∧
    (∃ a ∈ [equal, known.flip, known], ∃ b ∈ [equal, known.flip, known], a ≠ b ∧
      store.advise .or a b = .ok .alwaysTrue) ∧
    (hasContradiction [equal, known, both] = false ∧ hasTautology [equal, known, both] = false) ∧
    ∀ a ∈ [equal, known, both], ∀ b ∈ [equal, known, both], a ≠ b →
      (a.isLeaf = true → b.isLeaf = true → store.advise .and a b ≠ .ok .neverTrue) ∧
      store.advise .or a b ≠ .ok .alwaysTrue := by
  have asc : Ascending [equal, known.flip, known] ∧ Ascending [equal, known, both] := by decide
  have plain : ∀ n ∈ [equal, known.flip, known, both], n.isConstant = false := by decide
  have decided : hasContradiction [equal, known.flip, known] = true ∧
      hasTautology [equal, known.flip, known] = true := by decide
  have open' : hasContradiction [equal, known, both] = false ∧
      hasTautology [equal, known, both] = false := by decide
  have within : ∀ n ∈ [equal, known, both], n ∈ [equal, known.flip, known, both] := by simp
  obtain ⟨clash, -, always⟩ := Store.decided_by_two store asc.1
    fun n hn => plain n (List.mem_append_left [both] hn)
  obtain ⟨-, never, always'⟩ := Store.decided_by_two store asc.2
    fun n hn => plain n (within n hn)
  refine ⟨asc, plain, decided.1, clash.1 decided.1, decided.2, always.1 decided.2, open', ?_⟩
  intro a ha b hb ne
  constructor
  · intro leaf leaf' advised
    have found := never.2 ⟨a, ha, b, hb, ne, leaf, leaf', advised⟩
    exact Bool.noConfusion (open'.1.symm.trans found)
  · intro advised
    exact Bool.noConfusion (open'.2.symm.trans (always'.2 ⟨a, ha, b, hb, ne, advised⟩))

end Sample

end Criteria
