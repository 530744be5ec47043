import Criteria.Entailment
import Criteria.Proofs.Consolidation

/-!
# Entailment is sound

**Theorem (`holds_of_implies`, `not_holds_of_contradicts`).** If one valid node is seen to imply
another, every record that meets the one meets the other. If two are seen to contradict each other,
no record meets both.

Both are inductions on the levels that are left, along the case splits of the definitions: an AND
holds just if all its members do and an OR if one of them does, so each split is right whatever the
answers on the members are worth. What is left in the end are leaves, about which the codes tell.

The advice on two siblings is what the relations between them allow: `Advice.Agrees` says what an
advice promises of the truth values of the two, and `agrees_of_advise` that the promise is kept.
-/

namespace Criteria

variable {v : Vocabulary} {r : Record} {s : Store} {k : Connective} {fuel : Nat} {a b n : Node}
  {l : List Node}

namespace Store

/-! ## Leaves -/

theorem holds_of_requires (ha : s.ValidNode v a) (hb : s.ValidNode v b) (known : b.isKnown = true)
    (requires : a.requires b.argument = true) (holds : s.holds (v.holds r) a = true) :
    s.holds (v.holds r) b = true := by
  rw [Node.isKnown, Bool.and_eq_true] at known
  have code := hb.encodes_of_isLeaf (Node.isLeaf_of_isUnknownCheck known.1)
  have code' := ha.encodes_of_isLeaf (Node.isLeaf_of_requires requires)
  rw [holds_leaf code'] at holds
  rw [holds_leaf code, (code.holds_check known.1 r).2, known.2, if_pos rfl]
  exact code'.knows_of_requires requires holds

/-- Leaves that conflict never hold together. -/
theorem not_holds_of_conflicts (ha : v.Encodes a) (hb : v.Encodes b) (h : a.conflicts b = true)
    (holds : v.holds r a = true) : v.holds r b = false := by
  simp only [Node.conflicts, Bool.or_eq_true, Bool.and_eq_true, decide_eq_true_eq] at h
  rcases h with (rfl | ⟨unknown, requires⟩) | ⟨unknown, requires⟩
  · exact ha.not_holds_flip holds
  · exact ha.not_holds_of_requires hb unknown requires holds
  · rw [Bool.eq_false_iff]
    intro holds'
    rw [hb.not_holds_of_requires ha unknown requires holds'] at holds
    exact Bool.noConfusion holds

/-! ## Members -/

theorem holds_iff_of_isAnd (hs : s.Valid v) (hn : n.isAnd = true) (hl : s.members n = .ok l)
    {p : Node → Bool} : s.holds p n = true ↔ ∀ m ∈ l, s.holds p m = true := by
  rw [holds_and hs.layered (Node.isAnd_iff.1 hn) (list?_of_members hl).2, List.all_eq_true]

theorem holds_iff_of_isOr (hs : s.Valid v) (hn : n.isOr = true) (hl : s.members n = .ok l)
    {p : Node → Bool} : s.holds p n = true ↔ ∃ m ∈ l, s.holds p m = true := by
  rw [holds_or hs.layered (Node.isOr_iff.1 hn) (list?_of_members hl).2, List.any_eq_true]

section Members

variable {f : Node → Except Fault Bool}

theorem members_of_allM (hs : s.Valid v) (h : (do (← s.members n).allM f) = .ok true) :
    ∃ l, s.members n = .ok l ∧ ∀ m ∈ l, s.ValidNode v m ∧ f m = .ok true := by
  obtain ⟨l, hl, h⟩ := bind_eq_ok_iff.1 h
  exact ⟨l, hl, fun m hm => ⟨hs.members _ _ (list?_of_members hl).2 m hm, of_allM h m hm⟩⟩

theorem member_of_anyM (hs : s.Valid v) (h : (do (← s.members n).anyM f) = .ok true) :
    ∃ l, s.members n = .ok l ∧ ∃ m ∈ l, s.ValidNode v m ∧ f m = .ok true := by
  obtain ⟨l, hl, h⟩ := bind_eq_ok_iff.1 h
  obtain ⟨m, hm, h⟩ := of_anyM h
  exact ⟨l, hl, m, hm, hs.members _ _ (list?_of_members hl).2 m hm, h⟩

/-- The members of a valid node nest less deep, so what is answered there is answered together. -/
theorem exists_members_eq_ok (hs : s.Valid v) (hn : s.ValidNode v n) (hk : n.connective? = some k)
    {ask : List Node → Except Fault Bool}
    (h : ∀ l, (∀ m ∈ l, s.ValidNode v m ∧ m.level < n.level) → ∃ answer, ask l = .ok answer) :
    ∃ answer, (do ask (← s.members n)) = .ok answer := by
  obtain ⟨l, hl⟩ := hn.exists_members hk
  have list := (list?_of_members hl).2
  rw [hl]
  exact h l fun m hm => ⟨hs.members _ _ list m hm, level_lt_of_mem hs.layered hk list hm⟩

end Members

/-! ## Implication -/

theorem holds_of_impliesWithin (hs : s.Valid v) (ha : s.ValidNode v a) (hb : s.ValidNode v b)
    (h : s.impliesWithin fuel a b = .ok true) (holds : s.holds (v.holds r) a = true) :
    s.holds (v.holds r) b = true := by
  induction fuel generalizing a b with
  | zero => cases h
  | succ fuel ih =>
    unfold impliesWithin at h
    split at h
    · next same =>
      simp only [Bool.or_eq_true, decide_eq_true_eq] at same
      rcases same with (rfl | rfl) | rfl
      · exact holds
      · exact holds_all
      · rw [holds_none] at holds
        exact Bool.noConfusion holds
    split at h
    · cases h
    split at h
    · next isAnd =>
      obtain ⟨l, hl, each⟩ := members_of_allM hs h
      rw [holds_iff_of_isAnd hs isAnd hl]
      exact fun m hm => ih ha (each m hm).1 (each m hm).2 holds
    split at h
    · next isOr =>
      obtain ⟨l, hl, each⟩ := members_of_allM hs h
      obtain ⟨m, hm, holds⟩ := (holds_iff_of_isOr hs isOr hl).1 holds
      exact ih (each m hm).1 hb (each m hm).2 holds
    split at h
    · next isAnd =>
      obtain ⟨l, hl, m, hm, valid, h⟩ := member_of_anyM hs h
      exact ih valid hb h ((holds_iff_of_isAnd hs isAnd hl).1 holds m hm)
    split at h
    · next isOr =>
      obtain ⟨l, hl, m, hm, valid, h⟩ := member_of_anyM hs h
      rw [holds_iff_of_isOr hs isOr hl]
      exact ⟨m, hm, ih ha valid h holds⟩
    · cases h' : b.isKnown && a.requires b.argument with
      | false =>
        rw [h'] at h
        cases h
      | true =>
        rw [Bool.and_eq_true] at h'
        exact holds_of_requires ha hb h'.1 h'.2 holds

/-- With enough levels, two valid nodes are always compared. -/
theorem exists_impliesWithin_eq_ok (hs : s.Valid v) (ha : s.ValidNode v a) (hb : s.ValidNode v b)
    (deep : a.level + b.level < fuel) : ∃ answer, s.impliesWithin fuel a b = .ok answer := by
  induction fuel generalizing a b with
  | zero => exact (Nat.not_lt_zero _ deep).elim
  | succ fuel ih =>
    -- A step down on either side is paid for with one level.
    have left : ∀ m, s.ValidNode v m ∧ m.level < a.level →
        ∃ answer, s.impliesWithin fuel m b = .ok answer := fun m ⟨hm, lower⟩ => ih hm hb (by omega)
    have right : ∀ m, s.ValidNode v m ∧ m.level < b.level →
        ∃ answer, s.impliesWithin fuel a m = .ok answer := fun m ⟨hm, lower⟩ => ih ha hm (by omega)
    unfold impliesWithin
    split
    · exact ⟨true, rfl⟩
    split
    · exact ⟨false, rfl⟩
    split
    · next isAnd =>
      exact exists_members_eq_ok hs hb (Node.isAnd_iff.1 isAnd) fun l hl =>
        exists_allM_eq_ok fun m hm => right m (hl m hm)
    split
    · next isOr =>
      exact exists_members_eq_ok hs ha (Node.isOr_iff.1 isOr) fun l hl =>
        exists_allM_eq_ok fun m hm => left m (hl m hm)
    split
    · next isAnd =>
      exact exists_members_eq_ok hs ha (Node.isAnd_iff.1 isAnd) fun l hl =>
        exists_anyM_eq_ok fun m hm => left m (hl m hm)
    split
    · next isOr =>
      exact exists_members_eq_ok hs hb (Node.isOr_iff.1 isOr) fun l hl =>
        exists_anyM_eq_ok fun m hm => right m (hl m hm)
    · exact ⟨_, rfl⟩

/-- There are enough levels for any two valid nodes. -/
theorem level_add_level_lt (ha : s.ValidNode v a) (hb : s.ValidNode v b) :
    a.level + b.level < s.pairDepth := by
  have := ha.level_le
  have := hb.level_le
  have := Nat.le_mul_self (2 * s.size + 1)
  rw [pairDepth, Nat.mul_assoc]
  omega

theorem exists_implies_eq_ok (hs : s.Valid v) (ha : s.ValidNode v a) (hb : s.ValidNode v b) :
    ∃ answer, s.implies a b = .ok answer :=
  exists_impliesWithin_eq_ok hs ha hb (level_add_level_lt ha hb)

/-- If one node is seen to imply another, it does on every record. -/
theorem holds_of_implies (hs : s.Valid v) (ha : s.ValidNode v a) (hb : s.ValidNode v b)
    (h : s.implies a b = .ok true) (holds : s.holds (v.holds r) a = true) :
    s.holds (v.holds r) b = true :=
  holds_of_impliesWithin hs ha hb h holds

/-! ## Contradiction -/

theorem encodes_of_comparable (hn : s.ValidNode v n) (h1 : n ≠ .all) (h2 : n ≠ .none)
    (h3 : ¬ n.isAnd = true) (h4 : ¬ n.isOr = true) : v.Encodes n := by
  apply hn.encodes
  · rw [Bool.eq_false_iff, Ne, Node.isConstant_iff]
    exact not_or.2 ⟨h1, h2⟩
  · rw [Node.isAnd_iff] at h3
    rw [Node.isOr_iff] at h4
    rcases hk : n.connective? with _ | k
    · rfl
    · cases k with
      | and => exact (h3 hk).elim
      | or => exact (h4 hk).elim

theorem not_holds_of_contradictsWithin (hs : s.Valid v) (ha : s.ValidNode v a)
    (hb : s.ValidNode v b) (h : s.contradictsWithin fuel a b = .ok true)
    (holds : s.holds (v.holds r) a = true) : ¬ s.holds (v.holds r) b = true := by
  induction fuel generalizing a b with
  | zero => cases h
  | succ fuel ih =>
    intro holds'
    unfold contradictsWithin at h
    split at h
    · next none =>
      simp only [Bool.or_eq_true, decide_eq_true_eq] at none
      rcases none with rfl | rfl
      · rw [holds_none] at holds
        exact Bool.noConfusion holds
      · rw [holds_none] at holds'
        exact Bool.noConfusion holds'
    next not_none =>
    split at h
    · cases h
    next not_all =>
    split at h
    · next isAnd =>
      obtain ⟨l, hl, m, hm, valid, h⟩ := member_of_anyM hs h
      exact ih valid hb h ((holds_iff_of_isAnd hs isAnd hl).1 holds m hm) holds'
    split at h
    · next isAnd =>
      obtain ⟨l, hl, m, hm, valid, h⟩ := member_of_anyM hs h
      exact ih valid ha h ((holds_iff_of_isAnd hs isAnd hl).1 holds' m hm) holds
    split at h
    · next isOr =>
      obtain ⟨l, hl, each⟩ := members_of_allM hs h
      obtain ⟨m, hm, holds⟩ := (holds_iff_of_isOr hs isOr hl).1 holds
      exact ih (each m hm).1 hb (each m hm).2 holds holds'
    split at h
    · next isOr =>
      obtain ⟨l, hl, each⟩ := members_of_allM hs h
      obtain ⟨m, hm, holds'⟩ := (holds_iff_of_isOr hs isOr hl).1 holds'
      exact ih (each m hm).1 ha (each m hm).2 holds' holds
    · next a_and b_and a_or b_or =>
      simp only [Bool.or_eq_true, decide_eq_true_eq, not_or] at not_none not_all
      have code := encodes_of_comparable ha not_all.1 not_none.1 a_and a_or
      have code' := encodes_of_comparable hb not_all.2 not_none.2 b_and b_or
      have conflict : a.conflicts b = true := Except.ok.inj h
      rw [holds_leaf code] at holds
      rw [holds_leaf code', not_holds_of_conflicts code code' conflict holds] at holds'
      exact Bool.noConfusion holds'

theorem exists_contradictsWithin_eq_ok (hs : s.Valid v) (ha : s.ValidNode v a)
    (hb : s.ValidNode v b) (deep : a.level + b.level < fuel) :
    ∃ answer, s.contradictsWithin fuel a b = .ok answer := by
  induction fuel generalizing a b with
  | zero => exact (Nat.not_lt_zero _ deep).elim
  | succ fuel ih =>
    have left : ∀ m, s.ValidNode v m ∧ m.level < a.level →
        ∃ answer, s.contradictsWithin fuel m b = .ok answer :=
      fun m ⟨hm, lower⟩ => ih hm hb (by omega)
    have right : ∀ m, s.ValidNode v m ∧ m.level < b.level →
        ∃ answer, s.contradictsWithin fuel m a = .ok answer :=
      fun m ⟨hm, lower⟩ => ih hm ha (by omega)
    unfold contradictsWithin
    split
    · exact ⟨true, rfl⟩
    split
    · exact ⟨false, rfl⟩
    split
    · next isAnd =>
      exact exists_members_eq_ok hs ha (Node.isAnd_iff.1 isAnd) fun l hl =>
        exists_anyM_eq_ok fun m hm => left m (hl m hm)
    split
    · next isAnd =>
      exact exists_members_eq_ok hs hb (Node.isAnd_iff.1 isAnd) fun l hl =>
        exists_anyM_eq_ok fun m hm => right m (hl m hm)
    split
    · next isOr =>
      exact exists_members_eq_ok hs ha (Node.isOr_iff.1 isOr) fun l hl =>
        exists_allM_eq_ok fun m hm => left m (hl m hm)
    split
    · next isOr =>
      exact exists_members_eq_ok hs hb (Node.isOr_iff.1 isOr) fun l hl =>
        exists_allM_eq_ok fun m hm => right m (hl m hm)
    · exact ⟨_, rfl⟩

theorem exists_contradicts_eq_ok (hs : s.Valid v) (ha : s.ValidNode v a) (hb : s.ValidNode v b) :
    ∃ answer, s.contradicts a b = .ok answer :=
  exists_contradictsWithin_eq_ok hs ha hb (level_add_level_lt ha hb)

/-- If two nodes are seen to contradict each other, no record meets both. -/
theorem not_holds_of_contradicts (hs : s.Valid v) (ha : s.ValidNode v a) (hb : s.ValidNode v b)
    (h : s.contradicts a b = .ok true) (holds : s.holds (v.holds r) a = true) :
    ¬ s.holds (v.holds r) b = true :=
  not_holds_of_contradictsWithin hs ha hb h holds

/-! ## Comparing leaves -/

theorem isAnd_eq_false_of_isLeaf (h : n.isLeaf = true) : n.isAnd = false ∧ n.isOr = false := by
  have none := Node.connective?_eq_none_iff.2 (Node.not_isCombined_of_isLeaf h)
  simp [Node.isAnd, Node.isOr, none]

theorem impliesWithin_leaf (ha : a.isLeaf = true) (hb : b.isLeaf = true) :
    s.impliesWithin (fuel + 1) a b = .ok (a = b || b.isKnown && a.requires b.argument) := by
  obtain ⟨a_all, a_none⟩ := Node.ne_constant_of_isLeaf ha
  obtain ⟨b_all, b_none⟩ := Node.ne_constant_of_isLeaf hb
  obtain ⟨a_and, a_or⟩ := isAnd_eq_false_of_isLeaf ha
  obtain ⟨b_and, b_or⟩ := isAnd_eq_false_of_isLeaf hb
  rw [impliesWithin]
  by_cases same : a = b <;> simp [a_all, a_none, b_all, b_none, a_and, a_or, b_and, b_or, same]

theorem implies_leaf (ha : a.isLeaf = true) (hb : b.isLeaf = true) :
    s.implies a b = .ok (a = b || b.isKnown && a.requires b.argument) :=
  impliesWithin_leaf ha hb

theorem contradicts_leaf (ha : a.isLeaf = true) (hb : b.isLeaf = true) :
    s.contradicts a b = .ok (a.conflicts b) := by
  obtain ⟨a_all, a_none⟩ := Node.ne_constant_of_isLeaf ha
  obtain ⟨b_all, b_none⟩ := Node.ne_constant_of_isLeaf hb
  obtain ⟨a_and, a_or⟩ := isAnd_eq_false_of_isLeaf ha
  obtain ⟨b_and, b_or⟩ := isAnd_eq_false_of_isLeaf hb
  rw [contradicts, pairDepth, contradictsWithin]
  simp [a_all, a_none, b_all, b_none, a_and, a_or, b_and, b_or]

/-- One AND of leaves is seen to imply another if each leaf of this is implied by a leaf of that. -/
theorem implies_of_leaves {l' : List Node} (ha : a.connective? = some .and)
    (hl : s.list? a.number = some l) (leaves : ∀ m ∈ l, m.isLeaf = true)
    (hb : b.connective? = some .and) (hl' : s.list? b.number = some l')
    (leaves' : ∀ m ∈ l', m.isLeaf = true) (ne : a ≠ b) :
    s.implies a b =
      .ok (l'.all fun m' => l.any fun m => m = m' || m'.isKnown && m.requires m'.argument) := by
  obtain ⟨a_all, a_none⟩ := Node.ne_constant_of_connective? ha
  obtain ⟨b_all, b_none⟩ := Node.ne_constant_of_connective? hb
  have a_and : a.isAnd = true := Node.isAnd_iff.2 ha
  have a_or : a.isOr = false := by simp [Node.isOr, ha]
  have b_and : b.isAnd = true := Node.isAnd_iff.2 hb
  -- One level for each of the two, and one for the leaves.
  obtain ⟨fuel, depth⟩ : ∃ fuel, s.pairDepth = fuel + 3 := by
    have := Nat.le_mul_self (2 * s.size + 1)
    refine ⟨s.pairDepth - 3, ?_⟩
    rw [pairDepth, Nat.mul_assoc]
    omega
  have leaf : ∀ m' ∈ l', s.impliesWithin (fuel + 2) a m' =
      .ok (l.any fun m => m = m' || m'.isKnown && m.requires m'.argument) := by
    intro m' hm'
    have hm' := leaves' m' hm'
    obtain ⟨m_all, m_none⟩ := Node.ne_constant_of_isLeaf hm'
    obtain ⟨m_and, m_or⟩ := isAnd_eq_false_of_isLeaf hm'
    have ne : a ≠ m' := by
      rintro rfl
      rw [a_and] at m_and
      cases m_and
    rw [impliesWithin]
    simp only [ne, a_all, a_none, m_all, m_none, m_and, a_or, a_and, decide_false, Bool.or_self,
      Bool.false_eq_true, if_false, if_true, members_eq_ok ha hl]
    exact anyM_eq_ok fun m hm => impliesWithin_leaf (leaves m hm) hm'
  rw [implies, depth, impliesWithin]
  simp only [ne, a_all, a_none, b_all, b_none, b_and, decide_false, Bool.or_self,
    Bool.false_eq_true, if_false, if_true, members_eq_ok hb hl']
  exact allM_eq_ok leaf

/-! ## Comparing siblings -/

/-- Implications between two siblings tell at most that one of them can go. -/
theorem mem_of_adviseImplied {advice : Advice} (h : s.adviseImplied k a b = .ok advice) :
    advice ∈ [.retainBoth, .removeLeft, .removeRight, .removeEither] := by
  obtain ⟨forth, -, h⟩ := bind_eq_ok_iff.1 h
  obtain ⟨back, -, h⟩ := bind_eq_ok_iff.1 h
  cases forth with
  | true =>
    cases back with
    | true =>
      obtain ⟨left, -, h⟩ := bind_eq_ok_iff.1 h
      obtain ⟨right, -, h⟩ := bind_eq_ok_iff.1 h
      have h := Except.ok.inj h
      split at h
      · exact h ▸ by decide
      · split at h <;> exact h ▸ by decide
    | false => cases k <;> exact Except.ok.inj h ▸ by decide
  | false =>
    cases back with
    | true => cases k <;> exact Except.ok.inj h ▸ by decide
    | false => exact Except.ok.inj h ▸ by decide

/-- The advice on members of an AND that are no constants. -/
theorem advise_and_of_plain (ha : a.isConstant = false) (hb : b.isConstant = false) :
    s.advise .and a b =
      if a = b then .ok .removeEither
      else if a.isLeaf && b = a.flip then .ok .neverTrue
      else (do
        if ← s.contradicts a b then return .neverTrue
        s.adviseImplied .and a b) := by
  obtain ⟨a_all, a_none⟩ := Node.ne_constant_of_plain ha
  obtain ⟨b_all, b_none⟩ := Node.ne_constant_of_plain hb
  have neutral : Connective.and.neutralNode = .all := rfl
  have absorbing : Connective.and.absorbingNode = .none := rfl
  rw [advise, neutral, absorbing]
  simp [a_all, a_none, b_all, b_none]
  rfl

/-- The advice on members of an OR that are no constants. -/
theorem advise_or_of_plain (ha : a.isConstant = false) (hb : b.isConstant = false) :
    s.advise .or a b =
      if a = b then .ok .removeEither
      else if a.isLeaf && b = a.flip then
        .ok (if a.isUnknownCheck then .alwaysTrue else .replaceByKnown)
      else s.adviseImplied .or a b := by
  obtain ⟨a_all, a_none⟩ := Node.ne_constant_of_plain ha
  obtain ⟨b_all, b_none⟩ := Node.ne_constant_of_plain hb
  have neutral : Connective.or.neutralNode = .none := rfl
  have absorbing : Connective.or.absorbingNode = .all := rfl
  rw [advise, neutral, absorbing]
  simp only [a_all, a_none, b_all, b_none, reduceCtorEq, decide_false, Bool.or_self,
    Bool.and_self, Bool.false_eq_true, if_false]
  rfl

/-- The advice on leaves of an AND that do not contradict each other depends on what they imply. -/
theorem advise_and_of_leaves (ha : a.isLeaf = true) (hb : b.isLeaf = true) (ne : a ≠ b)
    (apart : a.conflicts b = false) : s.advise .and a b = s.adviseImplied .and a b := by
  have flip : b ≠ a.flip := by
    rintro rfl
    simp [Node.conflicts] at apart
  rw [advise_and_of_plain (Node.not_isConstant_of_isLeaf ha) (Node.not_isConstant_of_isLeaf hb),
    if_neg ne, if_neg (by simp [flip]), contradicts_leaf ha hb, apart]
  rfl

/-- So does the advice on combined members of an OR. -/
theorem advise_or_of_combined {k' : Connective} (ha : a.connective? = some k)
    (hb : b.connective? = some k') (ne : a ≠ b) :
    s.advise .or a b = s.adviseImplied .or a b := by
  have comb := Node.isCombined_of_connective? ha
  have comb' := Node.isCombined_of_connective? hb
  rw [advise_or_of_plain (Node.not_isConstant_of_isCombined comb)
    (Node.not_isConstant_of_isCombined comb'), if_neg ne,
    if_neg (by simp [Node.isLeaf_of_isCombined comb])]

/-! ## Assumptions -/

/-- Valid assumptions always answer. -/
theorem exists_settledBy_eq_ok (hs : s.Valid v) (hn : s.ValidNode v n)
    (hl : ∀ a ∈ l, s.ValidNode v a) : ∃ answer, s.settledBy n l = .ok answer := by
  induction l with
  | nil => exact ⟨none, rfl⟩
  | cons a l ih =>
    rw [List.forall_mem_cons] at hl
    obtain ⟨implied, himplied⟩ := exists_implies_eq_ok hs hl.1 hn
    obtain ⟨contradicted, hcontradicted⟩ := exists_contradicts_eq_ok hs hl.1 hn
    obtain ⟨rest, hrest⟩ := ih hl.2
    rw [settledBy, himplied, hcontradicted, hrest]
    cases implied <;> cases contradicted <;> exact ⟨_, rfl⟩

/-- What assumptions that hold say of a node is true. -/
theorem holds_of_settledBy (hs : s.Valid v) (hn : s.ValidNode v n)
    (hl : ∀ a ∈ l, s.ValidNode v a) {value : Bool} (h : s.settledBy n l = .ok (some value))
    (holds : ∀ a ∈ l, s.holds (v.holds r) a = true) : s.holds (v.holds r) n = value := by
  induction l with
  | nil => cases h
  | cons a l ih =>
    unfold settledBy at h
    obtain ⟨implied, himplied, h⟩ := bind_eq_ok_iff.1 h
    have ha := hl a List.mem_cons_self
    have holds_a := holds a List.mem_cons_self
    cases implied with
    | true =>
      cases h
      exact holds_of_implies hs ha hn himplied holds_a
    | false =>
      obtain ⟨contradicted, hcontradicted, h⟩ := bind_eq_ok_iff.1 h
      cases contradicted with
      | true =>
        cases h
        exact Bool.eq_false_iff.2 (not_holds_of_contradicts hs ha hn hcontradicted holds_a)
      | false =>
        exact ih (fun a h => hl a (List.mem_cons_of_mem _ h)) h
          fun a h => holds a (List.mem_cons_of_mem _ h)

end Store

/-! ## Advice -/

/-- What an advice promises of the values of two siblings, where `leaf` is whether the left one is
a leaf, and `known` whether the arguments of it are known. -/
def Advice.Agrees (k : Connective) (left right : Bool) (leaf : Prop) (known : Bool) : Advice → Prop
  | retainBoth => True
  | removeLeft => k.join id [left, right] = right
  | removeRight => k.join id [left, right] = left
  | removeEither => left = right
  | removeBoth => left = k.unit ∧ right = k.unit
  | replaceByKnown => leaf ∧ k.join id [left, right] = known
  | alwaysTrue => k.unit = false ∧ k.join id [left, right] = true
  | neverTrue => k.unit = true ∧ k.join id [left, right] = false

namespace Advice

variable {left right known : Bool} {leaf : Prop}

theorem agrees_decided (h : k.join id [left, right] = !k.unit) :
    (decided k).Agrees k left right leaf known := by
  cases k with
  | and => exact ⟨rfl, h⟩
  | or => exact ⟨rfl, h⟩

end Advice

namespace Store

variable {advice : Advice} {leaf : Prop} {known : Bool}

theorem agrees_adviseEquivalent {left right : Bool} (h : s.adviseEquivalent a b = .ok advice)
    (eq : left = right) : advice.Agrees k left right leaf known := by
  obtain ⟨wl, -, h⟩ := bind_eq_ok_iff.1 h
  obtain ⟨wr, -, h⟩ := bind_eq_ok_iff.1 h
  subst eq
  split at h
  · cases h
    cases k <;> cases left <;> rfl
  · split at h
    · cases h
      cases k <;> cases left <;> rfl
    · cases h
      rfl

theorem agrees_adviseImplied (hs : s.Valid v) (ha : s.ValidNode v a) (hb : s.ValidNode v b)
    (h : s.adviseImplied k a b = .ok advice) :
    advice.Agrees k (s.holds (v.holds r) a) (s.holds (v.holds r) b) leaf known := by
  obtain ⟨forth, hforth, h⟩ := bind_eq_ok_iff.1 h
  obtain ⟨back, hback, h⟩ := bind_eq_ok_iff.1 h
  have imp : forth = true → s.holds (v.holds r) a = true → s.holds (v.holds r) b = true := by
    rintro rfl
    exact holds_of_implies hs ha hb hforth
  have imp' : back = true → s.holds (v.holds r) b = true → s.holds (v.holds r) a = true := by
    rintro rfl
    exact holds_of_implies hs hb ha hback
  cases forth with
  | true =>
    have imp := imp rfl
    cases back with
    | true => exact agrees_adviseEquivalent h (Bool.eq_iff_iff.2 ⟨imp, imp' rfl⟩)
    | false =>
      obtain ⟨stronger, weaker⟩ := Connective.join_pair_of_imp imp
      cases k with
      | and =>
        cases h
        exact stronger
      | or =>
        cases h
        exact weaker
  | false =>
    cases back with
    | true =>
      obtain ⟨stronger, weaker⟩ := Connective.join_pair_of_imp (imp' rfl)
      cases k with
      | and =>
        cases h
        exact Connective.join_pair_comm.trans stronger
      | or =>
        cases h
        exact Connective.join_pair_comm.trans weaker
    | false => cases k <;> cases h <;> trivial

theorem exists_weigh_eq_ok (h : s.ValidNode v n) : ∃ weight, s.weigh n = .ok weight := by
  unfold weigh
  split
  · next comb =>
    obtain ⟨k, hk⟩ := Node.exists_connective? comb
    obtain ⟨l, hl⟩ := h.exists_members hk
    rw [hl]
    exact ⟨_, rfl⟩
  · exact ⟨_, rfl⟩

theorem exists_adviseImplied_eq_ok (hs : s.Valid v) (ha : s.ValidNode v a)
    (hb : s.ValidNode v b) : ∃ advice, s.adviseImplied k a b = .ok advice := by
  obtain ⟨forth, hforth⟩ := exists_implies_eq_ok hs ha hb
  obtain ⟨back, hback⟩ := exists_implies_eq_ok hs hb ha
  obtain ⟨wl, hwl⟩ := exists_weigh_eq_ok ha
  obtain ⟨wr, hwr⟩ := exists_weigh_eq_ok hb
  have equivalent : ∃ advice, s.adviseEquivalent a b = .ok advice := by
    rw [adviseEquivalent, hwl, hwr]
    exact ⟨_, rfl⟩
  rw [adviseImplied, hforth, hback]
  cases forth with
  | true =>
    cases back with
    | true => exact equivalent
    | false => cases k <;> exact ⟨_, rfl⟩
  | false =>
    cases back with
    | true => cases k <;> exact ⟨_, rfl⟩
    | false => exact ⟨_, rfl⟩

/-- There is advice on any two valid siblings. -/
theorem exists_advise_eq_ok (hs : s.Valid v) (ha : s.ValidNode v a) (hb : s.ValidNode v b) :
    ∃ advice, s.advise k a b = .ok advice := by
  obtain ⟨implied, himplied⟩ := exists_adviseImplied_eq_ok (k := k) hs ha hb
  obtain ⟨contradicted, hcontradicted⟩ := exists_contradicts_eq_ok hs ha hb
  unfold advise
  rw [himplied, hcontradicted]
  iterate 6
    split
    · exact ⟨_, rfl⟩
  cases k with
  | and => cases contradicted <;> exact ⟨_, rfl⟩
  | or => exact ⟨_, rfl⟩

/-- A leaf and its negation never hold together, and one of them does just where the arguments are
known. Of an unknown check and its negation one always holds. -/
theorem agrees_flip (code : v.Encodes a) :
    (if k = .and || a.isUnknownCheck then Advice.decided k else .replaceByKnown).Agrees k
      (v.holds r a) (v.holds r a.flip) (v.Encodes a) (v.knowsAll r a) := by
  cases check : a.isUnknownCheck with
  | true =>
    rw [Bool.or_true, if_pos rfl, code.holds_flip_check check r]
    apply Advice.agrees_decided
    cases k <;> cases v.holds r a <;> rfl
  | false =>
    obtain ⟨needs, flipped⟩ := code.holds_comparison check r
    rw [flipped, Bool.or_false]
    cases k with
    | and =>
      apply Advice.agrees_decided
      cases v.holds r a <;> cases v.knowsAll r a <;> rfl
    | or =>
      refine ⟨code, ?_⟩
      revert needs
      cases v.holds r a <;> cases v.knowsAll r a <;> decide

/-- The advice on two valid siblings is right on every record. -/
theorem agrees_advise (hs : s.Valid v) (ha : s.ValidNode v a) (hb : s.ValidNode v b)
    (h : s.advise k a b = .ok advice) :
    advice.Agrees k (s.holds (v.holds r) a) (s.holds (v.holds r) b) (v.Encodes a)
      (v.knowsAll r a) := by
  unfold advise at h
  split at h
  · next absorbed =>
    cases h
    apply Advice.agrees_decided
    simp only [Bool.or_eq_true, decide_eq_true_eq] at absorbed
    rcases absorbed with rfl | rfl
    · exact Connective.join_eq_not_unit List.mem_cons_self (holds_absorbingNode k)
    · exact Connective.join_eq_not_unit (List.mem_cons_of_mem _ List.mem_cons_self)
        (holds_absorbingNode k)
  split at h
  · next both =>
    cases h
    rw [Bool.and_eq_true, decide_eq_true_eq, decide_eq_true_eq] at both
    rw [both.1, both.2, holds_neutralNode]
    exact ⟨rfl, rfl⟩
  split at h
  · next eq =>
    cases h
    rw [eq, holds_neutralNode]
    exact Connective.join_unit_pair
  split at h
  · next eq =>
    cases h
    rw [eq, holds_neutralNode]
    exact Connective.join_pair_comm.trans Connective.join_unit_pair
  split at h
  · next eq =>
    cases h
    rw [eq]
    exact rfl
  split at h
  · next flipped =>
    cases h
    rw [Bool.and_eq_true, decide_eq_true_eq] at flipped
    obtain ⟨leaf, rfl⟩ := flipped
    have code := ha.encodes_of_isLeaf leaf
    rw [holds_leaf code, holds_leaf code.flip]
    exact agrees_flip code
  cases k with
  | and =>
    obtain ⟨contradicted, hcontradicted, h⟩ := bind_eq_ok_iff.1 h
    cases contradicted with
    | true =>
      cases h
      have not_both := not_holds_of_contradicts (r := r) hs ha hb hcontradicted
      refine ⟨rfl, Bool.eq_false_iff.2 fun both => ?_⟩
      simp only [Connective.join, List.all_cons, List.all_nil, id, Bool.and_true,
        Bool.and_eq_true] at both
      exact not_both both.1 both.2
    | false => exact agrees_adviseImplied hs ha hb h
  | or => exact agrees_adviseImplied hs ha hb h

end Store

end Criteria
