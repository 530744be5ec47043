import Criteria.Proofs.Advice
import Criteria.Proofs.Irredundance

/-!
# The order of two nodes

Two nodes are handed to the questions of entailment in some order, and callers hand in siblings in
the order of their codes, which means nothing. Does the answer depend on it?

**Theorem (`Session.Reached.entailment_mirrored`).** Contradiction is seen in both orders or in
none, unless two ORs are compared one of which has an AND as a member. The advice on siblings in the
other order is the mirror image, unless a contradiction is seen in one order only; then that order
is told that the AND never holds, and the other what the implications between the two call for.

The node that is opened first decides which quantifier is outermost. Where an AND meets anything
else, or an OR a leaf, the same node is opened in both orders (`contradicts_comm_of_ne`). Where two
ANDs meet, a contradiction is one of some members, and two quantifiers of the same kind commute; so
it is for two ORs of leaves (`contradicts_comm_of_members`). But an OR of leaves next to an OR with
an AND is contradicted member by member in one order, each by a member of the AND of its own, while
in the other order one member of the AND has to contradict all of them
(`Sample.slanted_unmirrored`).
-/

namespace Criteria

/-- Joining twice does not depend on what is joined first. -/
theorem Connective.join_join_comm {α β : Type} {k : Connective} {p : α → β → Bool} {l : List α}
    {l' : List β} :
    k.join (fun a => k.join (p a) l') l = k.join (fun b => k.join (p · b) l) l' := by
  apply bool_ext (k := k)
  simp only [join_eq_unit_iff]
  exact ⟨fun h b hb a ha => h a ha b hb, fun h a ha b hb => h b hb a ha⟩

theorem Node.conflicts_comm (a b : Node) : a.conflicts b = b.conflicts a := by
  have twins : b = a.flip ↔ a = b.flip :=
    ⟨fun h => h ▸ (flip_flip a).symm, fun h => h ▸ (flip_flip b).symm⟩
  rw [conflicts, conflicts, decide_eq_decide.2 twins, Bool.or_right_comm]

namespace Store

variable {v : Vocabulary} {s : Store} {k : Connective} {a b : Node} {l l' : List Node}

/-! ## Contradiction -/

/-- Unless two ANDs or two ORs meet, the same node is opened in both orders. -/
theorem contradicts_comm_of_ne (h : a.connective? = none ∨ a.connective? ≠ b.connective?) :
    s.contradicts a b = s.contradicts b a := by
  rw [contradicts, contradicts, pairDepth, contradictsWithin, contradictsWithin]
  rcases ha : a.connective? with _ | ka <;> rcases hb : b.connective? with _ | kb <;>
    rw [ha, hb] at h
  · simp [Node.isAnd, Node.isOr, ha, hb, or_comm, Node.conflicts_comm a b]
  · cases kb <;> simp [Node.isAnd, Node.isOr, ha, hb, or_comm]
  · cases ka <;> simp [Node.isAnd, Node.isOr, ha, hb, or_comm]
  · cases ka <;> cases kb <;> simp [Node.isAnd, ha, hb, or_comm] at h ⊢

/-- Whether two nodes are seen to contradict each other, for nodes that can be compared. -/
def opposes (s : Store) (a b : Node) : Bool := (s.contradicts a b).toOption.getD false

theorem contradicts_eq_ok (hs : s.Valid v) (ha : s.ValidNode v a) (hb : s.ValidNode v b) :
    s.contradicts a b = .ok (s.opposes a b) := by
  obtain ⟨answer, eq⟩ := exists_contradicts_eq_ok hs ha hb
  rw [opposes, eq]
  rfl

theorem contradictsWithin_eq_ok {fuel : Nat} (hs : s.Valid v) (ha : s.ValidNode v a)
    (hb : s.ValidNode v b) (deep : a.level + b.level < fuel) (le : fuel ≤ s.pairDepth) :
    s.contradictsWithin fuel a b = .ok (s.opposes a b) := by
  obtain ⟨answer, eq⟩ := exists_contradictsWithin_eq_ok hs ha hb deep
  rw [eq, ← contradicts_eq_ok hs ha hb]
  exact (contradictsWithin_of_partOf (.refl s) le eq).symm

/-- What the members of the left node say of a contradiction: in an AND one of them has to
contradict the right node, in an OR all of them. -/
theorem opposes_combined (hs : s.Valid v) (ha : s.ValidNode v a) (hb : s.ValidNode v b)
    (hk : a.connective? = some k) (hl : s.list? a.number = some l) (plain : b.isConstant = false)
    (first : k = .or → b.isAnd = false) : s.opposes a b = k.dual.join (s.opposes · b) l := by
  obtain ⟨fuel, depth⟩ : ∃ fuel, s.pairDepth = fuel + 1 := ⟨_, rfl⟩
  have deep := level_add_level_lt ha hb
  have each : ∀ m ∈ l, s.contradictsWithin fuel m b = .ok (s.opposes m b) := by
    intro m hm
    have lower := level_lt_of_mem hs.layered hk hl hm
    exact contradictsWithin_eq_ok hs (hs.members _ _ hl m hm) hb (by omega) (by omega)
  obtain ⟨a_all, a_none⟩ := Node.ne_constant_of_connective? hk
  obtain ⟨b_all, b_none⟩ : b ≠ .all ∧ b ≠ .none := by
    rwa [Bool.eq_false_iff, Ne, Node.isConstant_iff, not_or] at plain
  have joined : s.contradicts a b = .ok (k.dual.join (s.opposes · b) l) := by
    rw [contradicts, depth, contradictsWithin]
    cases k with
    | and =>
      simp only [a_all, a_none, b_all, b_none, Node.isAnd_iff.2 hk, members_eq_ok hk hl,
        decide_false, Bool.or_self, Bool.false_eq_true, if_false, if_true]
      exact anyM_eq_ok each
    | or =>
      have a_and : a.isAnd = false := by simp [Node.isAnd, hk]
      simp only [a_all, a_none, b_all, b_none, a_and, first rfl, Node.isOr_iff.2 hk,
        members_eq_ok hk hl, decide_false, Bool.or_self, Bool.false_eq_true, if_false, if_true]
      exact allM_eq_ok each
  rw [opposes, joined]
  rfl

/-- Two ANDs contradict each other in both orders if their members do, and so do two ORs without
ANDs. -/
theorem contradicts_comm_of_members (hs : s.Valid v) (ha : s.ValidNode v a) (hb : s.ValidNode v b)
    (hk : a.connective? = some k) (hl : s.list? a.number = some l) (hk' : b.connective? = some k)
    (hl' : s.list? b.number = some l')
    (plain : k = .or → ∀ m, m ∈ l ∨ m ∈ l' → m.isAnd = false)
    (pairs : ∀ m ∈ l, ∀ m' ∈ l', s.contradicts m m' = s.contradicts m' m) :
    s.contradicts a b = s.contradicts b a := by
  -- A member of one of the two is never joined by the connective of the other.
  have opened : ∀ {a b : Node} {l l' : List Node}, s.ValidNode v a → s.ValidNode v b →
      a.connective? = some k → s.list? a.number = some l → b.connective? = some k →
      s.list? b.number = some l' → (k = .or → ∀ m ∈ l, m.isAnd = false) →
      s.opposes a b = k.dual.join (fun m => k.dual.join (s.opposes · m) l') l := by
    intro a b l l' ha hb hk hl hk' hl' plain
    obtain ⟨l₀, hl₀, hc⟩ := ha.list? hk
    cases hl.symm.trans hl₀
    have constant := Node.not_isConstant_of_isCombined (Node.isCombined_of_connective? hk')
    rw [opposes_combined hs ha hb hk hl constant
      (by rintro rfl; simp [Node.isAnd, hk'])]
    refine Connective.join_congr fun m hm => ?_
    have valid := hs.members _ _ hl m hm
    have constant : m.isConstant = false := by
      rcases hc.plain m hm with leaf | comb
      · exact Node.not_isConstant_of_isLeaf leaf
      · exact Node.not_isConstant_of_isCombined comb
    rw [← opposes_combined hs hb valid hk' hl' constant fun or => plain or m hm, opposes, opposes,
      contradicts_comm_of_ne (.inr (by rw [hk']; exact hc.lifted m hm))]
  rw [contradicts_eq_ok hs ha hb, contradicts_eq_ok hs hb ha,
    opened ha hb hk hl hk' hl' fun or m hm => plain or m (.inl hm),
    opened hb ha hk' hl' hk hl fun or m hm => plain or m (.inr hm), Connective.join_join_comm]
  refine congrArg _ (Connective.join_congr fun m' hm' => Connective.join_congr fun m hm => ?_)
  rw [opposes, opposes, pairs m hm m' hm']

/-- Whether a node has an AND as a member. -/
def HasAnd (s : Store) (n : Node) : Prop :=
  ∃ l, s.list? n.number = some l ∧ ∃ m ∈ l, m.isAnd = true

/-- Two ORs, at least one of them with an AND as a member, of which it depends on their order
whether they are seen to contradict each other. -/
structure Slanted (s : Store) (a b : Node) : Prop where
  left : a.isOr = true
  right : b.isOr = true
  hasAnd : s.HasAnd a ∨ s.HasAnd b
  ne : s.contradicts a b ≠ s.contradicts b a

theorem slanted_of_ne (hs : s.Valid v) (ha : s.ValidNode v a) (hb : s.ValidNode v b)
    (isAnd : a.isAnd = false) (ne : s.contradicts a b ≠ s.contradicts b a) : s.Slanted a b := by
  obtain ⟨combined, same⟩ := not_or.1 (mt contradicts_comm_of_ne ne)
  rw [Ne, not_not] at same
  have or : a.connective? = some .or := by
    cases hk : a.connective? with
    | none => exact (combined hk).elim
    | some k =>
      cases k with
      | or => rfl
      | and => simp [Node.isAnd, hk] at isAnd
  rw [or, eq_comm] at same
  refine ⟨Node.isOr_iff.2 or, Node.isOr_iff.2 same, ?_, ne⟩
  by_contra plain
  rw [not_or] at plain
  obtain ⟨l, hl, hc⟩ := ha.list? or
  obtain ⟨l', hl', hc'⟩ := hb.list? same
  have plain : ∀ m, m ∈ l ∨ m ∈ l' → m.isAnd = false := by
    rintro m (hm | hm) <;> rw [Bool.eq_false_iff]
    · exact fun isAnd => plain.1 ⟨l, hl, m, hm, isAnd⟩
    · exact fun isAnd => plain.2 ⟨l', hl', m, hm, isAnd⟩
  -- So all members are leaves.
  have leaf : ∀ m ∈ l, m.connective? = none := by
    intro m hm
    cases hk : m.connective? with
    | none => rfl
    | some k =>
      cases k with
      | or => exact (hc.lifted m hm hk).elim
      | and => simpa [Node.isAnd, hk] using plain m (.inl hm)
  refine ne (contradicts_comm_of_members hs ha hb or hl same hl' (fun _ => plain) ?_)
  exact fun m hm m' _ => contradicts_comm_of_ne (.inl (leaf m hm))

/-- A contradiction is seen in both orders or in none, unless it comes down to such ORs. -/
theorem contradicts_comm (hs : s.Valid v) (ha : s.ValidNode v a) (hb : s.ValidNode v b) :
    s.contradicts a b = s.contradicts b a ∨ s.Slanted a b ∨
      a.isAnd = true ∧ b.isAnd = true ∧ ∃ l l', s.list? a.number = some l ∧
        s.list? b.number = some l' ∧ ∃ m ∈ l, ∃ m' ∈ l', s.Slanted m m' := by
  by_cases ne : s.contradicts a b = s.contradicts b a
  · exact .inl ne
  refine .inr ?_
  cases isAnd : a.isAnd with
  | false => exact .inl (slanted_of_ne hs ha hb isAnd ne)
  | true =>
    have and := Node.isAnd_iff.1 isAnd
    obtain ⟨-, same⟩ := not_or.1 (mt contradicts_comm_of_ne ne)
    rw [Ne, not_not, and, eq_comm] at same
    obtain ⟨l, hl, hc⟩ := ha.list? and
    obtain ⟨l', hl', -⟩ := hb.list? same
    refine .inr ⟨rfl, Node.isAnd_iff.2 same, l, l', hl, hl', ?_⟩
    by_contra level
    refine ne (contradicts_comm_of_members hs ha hb and hl same hl' (by rintro ⟨⟩) ?_)
    intro m hm m' hm'
    by_contra ne
    have member : m.isAnd = false := by
      rw [Bool.eq_false_iff]
      exact fun isAnd => hc.lifted m hm (Node.isAnd_iff.1 isAnd)
    exact level ⟨m, hm, m', hm',
      slanted_of_ne hs (hs.members _ _ hl m hm) (hs.members _ _ hl' m' hm') member ne⟩

/-! ## Advice -/

theorem Weight.not_below_of_below {w w' : Weight} (h : w.below w' = true) :
    w'.below w = false := by
  obtain ⟨nested, members⟩ := w
  obtain ⟨nested', members'⟩ := w'
  cases nested <;> cases nested' <;> simp [below] at h ⊢
  all_goals omega

theorem adviseEquivalent_mirror (ha : s.ValidNode v a) (hb : s.ValidNode v b) :
    s.adviseEquivalent b a = (s.adviseEquivalent a b).map Advice.mirror := by
  obtain ⟨w, hw⟩ := exists_weigh_eq_ok ha
  obtain ⟨w', hw'⟩ := exists_weigh_eq_ok hb
  rw [adviseEquivalent, adviseEquivalent, hw, hw']
  refine congrArg Except.ok ?_
  cases below : w.below w' with
  | true =>
    rw [Weight.not_below_of_below below]
    rfl
  | false => cases w'.below w <;> rfl

theorem adviseImplied_mirror (hs : s.Valid v) (ha : s.ValidNode v a) (hb : s.ValidNode v b)
    (k : Connective) : s.adviseImplied k b a = (s.adviseImplied k a b).map Advice.mirror := by
  obtain ⟨forth, hforth⟩ := exists_implies_eq_ok hs ha hb
  obtain ⟨back, hback⟩ := exists_implies_eq_ok hs hb ha
  rw [adviseImplied, adviseImplied, hforth, hback]
  cases forth with
  | true =>
    cases back with
    | true => exact adviseEquivalent_mirror ha hb
    | false => cases k <;> rfl
  | false =>
    cases back with
    | true => cases k <;> rfl
    | false => rfl

theorem ite_mirror {c c' : Prop} [Decidable c] [Decidable c'] {x y x' y' : Except Fault Advice}
    (same : c' ↔ c) (hx : c → x' = x.map Advice.mirror) (hy : ¬ c → y' = y.map Advice.mirror) :
    (if c' then x' else y') = (if c then x else y).map Advice.mirror := by
  by_cases h : c
  · rw [if_pos h, if_pos (same.2 h), hx h]
  · rw [if_neg h, if_neg (mt same.1 h), hy h]

/-- The advice in the other order is the mirror image, if contradiction does not tell the orders
apart. -/
theorem advise_mirror (hs : s.Valid v) (ha : s.ValidNode v a) (hb : s.ValidNode v b)
    (even : k = .and → s.contradicts a b = s.contradicts b a) :
    s.advise k b a = (s.advise k a b).map Advice.mirror := by
  have decided : (Advice.decided k).mirror = .decided k := by cases k <;> rfl
  have twins : ∀ {a b : Node}, s.ValidNode v a → a.isLeaf = true ∧ b = a.flip →
      b.isLeaf = true ∧ a = b.flip ∧ b.isUnknownCheck = a.isUnknownCheck := by
    rintro a b ha ⟨leaf, rfl⟩
    have code := ha.encodes_of_isLeaf leaf
    exact ⟨code.flip.isLeaf, (Node.flip_flip a).symm, code.isNegated_flip.2.1⟩
  unfold advise
  refine ite_mirror (by rw [Bool.or_comm]) (fun _ => congrArg Except.ok decided.symm) fun _ => ?_
  refine ite_mirror (by rw [Bool.and_comm]) (fun _ => rfl) fun one => ?_
  -- At most one of the two is neutral, and it can go whichever comes first.
  by_cases left : a = k.neutralNode
  · have right : b ≠ k.neutralNode := fun right => one (by simp [left, right])
    rw [if_pos left, if_neg right, if_pos left]
    rfl
  rw [if_neg left, if_neg left]
  refine ite_mirror .rfl (fun _ => rfl) fun _ => ?_
  refine ite_mirror eq_comm (fun _ => rfl) fun _ => ?_
  simp only [Bool.and_eq_true, decide_eq_true_eq]
  refine ite_mirror ?_ (fun h => ?_) fun _ => ?_
  · exact ⟨fun h => ⟨(twins hb h).1, (twins hb h).2.1⟩, fun h => ⟨(twins ha h).1, (twins ha h).2.1⟩⟩
  · rw [(twins ha h).2.2]
    refine congrArg Except.ok ?_
    split
    · exact decided.symm
    · rfl
  cases k with
  | or => exact adviseImplied_mirror hs ha hb .or
  | and =>
    rw [if_pos rfl, if_pos rfl, ← even rfl, contradicts_eq_ok hs ha hb]
    cases s.opposes a b with
    | true => rfl
    | false => exact adviseImplied_mirror hs ha hb .and

/-- Where two combined nodes are members of an AND, a contradiction is what is asked for first. -/
theorem advise_and_of_combined {k' : Connective} (ha : a.connective? = some k)
    (hb : b.connective? = some k') (ne : a ≠ b) {contradicted : Bool}
    (h : s.contradicts a b = .ok contradicted) :
    s.advise .and a b = if contradicted then .ok .neverTrue else s.adviseImplied .and a b := by
  have comb := Node.isCombined_of_connective? ha
  have comb' := Node.isCombined_of_connective? hb
  rw [advise_and_of_plain (Node.not_isConstant_of_isCombined comb)
    (Node.not_isConstant_of_isCombined comb'), if_neg ne,
    if_neg (by simp [Node.isLeaf_of_isCombined comb]), h]
  cases contradicted <;> rfl

/-- Where a contradiction is seen in one order only, that order is told so, and the other what the
implications call for. -/
theorem advise_and_of_contradicts_ne (h : s.contradicts a b = .ok true)
    (h' : s.contradicts b a = .ok false) :
    s.advise .and a b = .ok .neverTrue ∧ s.advise .and b a = s.adviseImplied .and b a := by
  have ne : s.contradicts a b ≠ s.contradicts b a := by
    rw [h, h']
    simp
  obtain ⟨combined, same⟩ := not_or.1 (mt contradicts_comm_of_ne ne)
  rw [Ne, not_not] at same
  obtain ⟨k, hk⟩ := Option.ne_none_iff_exists'.1 combined
  have distinct : a ≠ b := fun eq => ne (by rw [eq])
  rw [hk, eq_comm] at same
  exact ⟨advise_and_of_combined hk same distinct h,
    advise_and_of_combined same hk distinct.symm h'⟩

end Store

/-! ## In sessions -/

namespace Session

variable {x : Session}

/-- Contradiction is seen in both orders or in none, unless two ORs are compared one of which has an
AND as a member. The advice in the other order is the mirror image, unless a contradiction is seen
in one order only, of which only that order is told. -/
theorem Reached.entailment_mirrored (h : x.Reached) {a b : Node} (ha : x.Usable a)
    (hb : x.Usable b) :
    let s := x.forest.store
    (∃ answer, s.contradicts a b = .ok answer) ∧
    (s.contradicts a b = s.contradicts b a ∨ s.Slanted a b ∨
      a.isAnd = true ∧ b.isAnd = true ∧ ∃ l l', s.list? a.number = some l ∧
        s.list? b.number = some l' ∧ ∃ m ∈ l, ∃ m' ∈ l', s.Slanted m m') ∧
    (∀ k, ∃ advice, s.advise k a b = .ok advice ∧
      ((k = .and → s.contradicts a b = s.contradicts b a) →
        s.advise k b a = .ok advice.mirror)) ∧
    (s.contradicts a b = .ok true → s.contradicts b a = .ok false →
      s.advise .and a b = .ok .neverTrue ∧
      ∃ advice, s.adviseImplied .and a b = .ok advice ∧
        s.advise .and b a = .ok advice.mirror) := by
  have sound := h.sound
  have valid := sound.forest.store
  have left := sound.validNode ha
  have right := sound.validNode hb
  refine ⟨Store.exists_contradicts_eq_ok valid left right, Store.contradicts_comm valid left right,
    fun k => ?_, fun seen unseen => ?_⟩
  · obtain ⟨advice, advised⟩ := Store.exists_advise_eq_ok (k := k) valid left right
    refine ⟨advice, advised, fun even => ?_⟩
    rw [Store.advise_mirror valid left right even, advised]
    rfl
  · obtain ⟨never, implied⟩ := Store.advise_and_of_contradicts_ne seen unseen
    obtain ⟨advice, advised⟩ :=
      Store.exists_adviseImplied_eq_ok (k := .and) valid left right
    refine ⟨never, advice, advised, ?_⟩
    rw [implied, Store.adviseImplied_mirror valid left right, advised]
    rfl

end Session

namespace Sample

/-- In an AND, `a IS NOT UNKNOWN` can go on either side of `a = x`. -/
theorem equal_mirrored :
    session.forest.store.advise .and equal known = .ok .removeRight ∧
    session.forest.store.advise .and known equal = .ok .removeLeft ∧
    session.forest.store.contradicts both known.flip = .ok true ∧
    session.forest.store.contradicts known.flip both = .ok true := by
  have removed : session.forest.store.advise .and equal known = .ok .removeRight := rfl
  have even : session.forest.store.contradicts equal known =
      session.forest.store.contradicts known equal := rfl
  have seen : session.forest.store.contradicts both known.flip = .ok true := rfl
  obtain ⟨-, -, advised, -⟩ := reached.entailment_mirrored usable_equal usable_known
  obtain ⟨advice, eq, mirrored⟩ := advised .and
  cases removed.symm.trans eq
  obtain ⟨-, comm, -⟩ := reached.entailment_mirrored usable_both usable_unknown
  -- The two are no ORs, and `a IS UNKNOWN` is no AND.
  have comm := comm.resolve_right fun slanted =>
    slanted.elim (fun h => absurd h.left (by decide)) fun h => absurd h.2.1 (by decide)
  exact ⟨removed, mirrored fun _ => even, seen, comm ▸ seen⟩

/-! ### Slanted ORs -/

/-- The node of `a > x OR a = x`. -/
def reaching : Node := .combined .or 0

/-- The node of `STRICT NOT a > x AND STRICT NOT a = x`. -/
def missing : Node := .combined .and 1

/-- The node of `a IS UNKNOWN OR (STRICT NOT a > x AND STRICT NOT a = x)`. -/
def failing : Node := .combined .or 2

/-- The store of the first. -/
def reachingStore : Store :=
  (Store.empty Store.defaultThreshold).push [greater, equal] (Store.find?_eq_none (by decide))

/-- The store of the first two. -/
def missingStore : Store :=
  reachingStore.push [greater.flip, equal.flip] (Store.find?_eq_none (by decide))

/-- The store of all three. -/
def failingStore : Store :=
  missingStore.push [known.flip, missing] (Store.find?_eq_none (by decide))

/-- The session in which they were built, one after the other. -/
def slanted : Session :=
  ⟨⟨.ofVocabulary vocabulary, failingStore, []⟩, [failing], [missing, reaching]⟩

theorem reached_slanted : slanted.Reached := by
  have equal_code := Vocabulary.encodes_iff.2 ⟨_, codes_equal⟩
  have greater_code := Vocabulary.encodes_iff.2 ⟨_, codes_greater⟩
  have unknown_code := Vocabulary.encodes_iff.2 ⟨_, codes_known.flip⟩
  have reached : (Store.empty Store.defaultThreshold).combine .or [greater, equal] =
      .ok (reaching, reachingStore) :=
    Store.combine_of_new (by rfl) (by decide) (by decide) (by decide)
  have missed : reachingStore.combine .and [greater.flip, equal.flip] =
      .ok (missing, missingStore) :=
    Store.combine_of_new (by rfl) (by decide) (by decide) (by decide)
  have failed : missingStore.combine .or [known.flip, missing] = .ok (failing, failingStore) :=
    Store.combine_of_new (by rfl) (by decide) (by decide) (by decide)
  have first := (Session.Reached.ofVocabulary vocabulary).combine
    (List.forall_mem_cons.2 ⟨.leaf greater_code, List.forall_mem_singleton.2 (.leaf equal_code)⟩)
    reached
  have second := first.combine (List.forall_mem_cons.2
    ⟨.leaf greater_code.flip, List.forall_mem_singleton.2 (.leaf equal_code.flip)⟩) missed
  refine second.combine (List.forall_mem_cons.2
    ⟨.leaf unknown_code, List.forall_mem_singleton.2 ?_⟩) failed
  exact .combined (by decide) rfl (.inl (List.mem_singleton_self _))

/-- No record meets both ORs, but this is seen in one order only, in which the AND of the two is
told never to hold. In the other order both members are kept. -/
theorem slanted_unmirrored :
    slanted.Reached ∧ slanted.Usable reaching ∧ slanted.Usable failing ∧
    slanted.forest.store.contradicts reaching failing = .ok true ∧
    slanted.forest.store.contradicts failing reaching = .ok false ∧
    slanted.forest.store.advise .and reaching failing = .ok .neverTrue ∧
    slanted.forest.store.advise .and failing reaching = .ok .retainBoth := by
  refine ⟨reached_slanted, ?_, ?_, rfl, rfl, rfl, rfl⟩
  · exact .combined (by decide) rfl (.inr (.inl (by decide)))
  · exact .combined (by decide) rfl (.inl (by decide))

end Sample

end Criteria
