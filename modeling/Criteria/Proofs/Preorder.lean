import Criteria.Proofs.Repetition
import Criteria.Proofs.Session

/-!
# Seen implication is a preorder

**Theorem (`Session.Reached.implication_preorder`).** A usable node is seen to imply itself. If it
is seen to imply a second one, and that one a third, it is seen to imply the third.

This is not inherited from implication on records, as not all of that is seen: `a = 1 AND b = 1` is
not seen to imply `(a = 1 AND b = 1) OR c = 1`, because the AND is opened first and no single member
of it will do. So seen implication is not preserved when a node is put below an OR either, and only
the order in which nodes are opened makes it transitive.

That order is an equation without a bound on the levels (`entails_eq`): an AND on the right is
opened first, then the node on the left, and an OR on the right last. From it there is one rule for
each way to open a node. Transitivity is an induction on the levels of the three nodes together.
An AND on the right is met member by member. An AND in the middle is opened by what comes after it,
which finds the one member that does, while what comes before implies all of them. In the other
cases the node on the left is opened, unless it is a leaf. Then it is the OR in the middle that is
opened, by what comes before it, or else the OR on the right.
-/

namespace Criteria

namespace Store

variable {v : Vocabulary} {s : Store} {k : Connective} {a b c m : Node} {l l' : List Node}

/-! ## Implication without levels -/

/-- Whether a node is seen to imply another, for nodes that can be compared. -/
def entails (s : Store) (a b : Node) : Bool := (s.implies a b).toOption.getD false

theorem implies_eq_ok (hs : s.Valid v) (ha : s.ValidNode v a) (hb : s.ValidNode v b) :
    s.implies a b = .ok (s.entails a b) := by
  obtain ⟨answer, eq⟩ := exists_implies_eq_ok hs ha hb
  rw [entails, eq]
  rfl

theorem impliesWithin_eq_ok {fuel : Nat} (hs : s.Valid v) (ha : s.ValidNode v a)
    (hb : s.ValidNode v b) (deep : a.level + b.level < fuel) (le : fuel ≤ s.pairDepth) :
    s.impliesWithin fuel a b = .ok (s.entails a b) := by
  obtain ⟨answer, eq⟩ := exists_impliesWithin_eq_ok hs ha hb deep
  rw [eq, ← implies_eq_ok hs ha hb]
  exact (impliesWithin_of_partOf (.refl s) le eq).symm

/-- What is asked of the members of a node, if a combined node is asked of. -/
theorem members_bind (hs : s.Valid v) (ha : s.ValidNode v a) (hk : a.connective? = some k)
    {ask : List Node → Except Fault Bool} {answer : List Node → Bool}
    (each : ∀ l, (∀ m ∈ l, s.ValidNode v m ∧ m.level < a.level) → ask l = .ok (answer l)) :
    (do ask (← s.members a)) = .ok ((s.list? a.number).any answer) := by
  obtain ⟨l, hl, -⟩ := ha.list? hk
  rw [members_eq_ok hk hl, hl]
  exact each l fun m hm => ⟨hs.members _ _ hl m hm, level_lt_of_mem hs.layered hk hl hm⟩

/-- The order in which nodes are opened. -/
theorem entails_eq (hs : s.Valid v) (ha : s.ValidNode v a) (hb : s.ValidNode v b) :
    s.entails a b =
      if a = b || b = .all || a = .none then true
      else if a = .all || b = .none then false
      else if b.isAnd then (s.list? b.number).any (·.all (s.entails a))
      else if a.isOr then (s.list? a.number).any (·.all (s.entails · b))
      else if a.isAnd then (s.list? a.number).any (·.any (s.entails · b))
      else if b.isOr then (s.list? b.number).any (·.any (s.entails a))
      else b.isKnown && a.requires b.argument := by
  obtain ⟨fuel, depth⟩ : ∃ fuel, s.pairDepth = fuel + 1 := ⟨_, rfl⟩
  have deep := level_add_level_lt ha hb
  have left : ∀ m, s.ValidNode v m ∧ m.level < a.level →
      s.impliesWithin fuel m b = .ok (s.entails m b) := fun m ⟨hm, lower⟩ =>
    impliesWithin_eq_ok hs hm hb (by omega) (by omega)
  have right : ∀ m, s.ValidNode v m ∧ m.level < b.level →
      s.impliesWithin fuel a m = .ok (s.entails a m) := fun m ⟨hm, lower⟩ =>
    impliesWithin_eq_ok hs ha hm (by omega) (by omega)
  apply Except.ok.inj (ε := Fault)
  rw [← implies_eq_ok hs ha hb, implies, depth, impliesWithin]
  simp only [apply_ite (Except.ok (ε := Fault))]
  refine ite_congr rfl (fun _ => rfl) fun _ => ite_congr rfl (fun _ => rfl) fun _ => ?_
  refine ite_congr rfl (fun isAnd => ?_) fun _ => ite_congr rfl (fun isOr => ?_) fun _ =>
    ite_congr rfl (fun isAnd => ?_) fun _ => ite_congr rfl (fun isOr => ?_) fun _ => rfl
  · exact members_bind hs hb (Node.isAnd_iff.1 isAnd) fun l hl =>
      allM_eq_ok fun m hm => right m (hl m hm)
  · exact members_bind hs ha (Node.isOr_iff.1 isOr) fun l hl =>
      allM_eq_ok fun m hm => left m (hl m hm)
  · exact members_bind hs ha (Node.isAnd_iff.1 isAnd) fun l hl =>
      anyM_eq_ok fun m hm => left m (hl m hm)
  · exact members_bind hs hb (Node.isOr_iff.1 isOr) fun l hl =>
      anyM_eq_ok fun m hm => right m (hl m hm)

/-! ## One rule for each way to open a node -/

theorem entails_self (hs : s.Valid v) (ha : s.ValidNode v a) : s.entails a a = true := by
  simp [entails_eq hs ha ha]

theorem entails_all (hs : s.Valid v) (ha : s.ValidNode v a) : s.entails a .all = true := by
  simp [entails_eq hs ha validNode_all]

theorem none_entails (hs : s.Valid v) (hb : s.ValidNode v b) : s.entails .none b = true := by
  simp [entails_eq hs validNode_none hb]

theorem eq_all_of_all_entails (hs : s.Valid v) (hb : s.ValidNode v b)
    (h : s.entails .all b = true) : b = .all := by
  rw [entails_eq hs validNode_all hb] at h
  by_contra ne
  simp [ne, Ne.symm ne, show Node.all ≠ .none by decide] at h

theorem eq_none_of_entails_none (hs : s.Valid v) (ha : s.ValidNode v a)
    (h : s.entails a .none = true) : a = .none := by
  rw [entails_eq hs ha validNode_none] at h
  by_contra ne
  simp [ne, show Node.none ≠ .all by decide] at h

/-- Unless it is on both sides, an OR implies what all its members imply, if this is no AND. -/
theorem or_entails_iff (hs : s.Valid v) (ha : s.ValidNode v a) (hb : s.ValidNode v b)
    (hk : a.connective? = some .or) (hl : s.list? a.number = some l) (ne : a ≠ b)
    (plain : b.isConstant = false) (last : b.isAnd = false) :
    s.entails a b = true ↔ ∀ m ∈ l, s.entails m b = true := by
  obtain ⟨a_all, a_none⟩ := Node.ne_constant_of_connective? hk
  obtain ⟨b_all, b_none⟩ : b ≠ .all ∧ b ≠ .none := by
    rwa [Bool.eq_false_iff, Ne, Node.isConstant_iff, not_or] at plain
  rw [entails_eq hs ha hb]
  simp [ne, a_all, a_none, b_all, b_none, last, Node.isOr_iff.2 hk, hl]

/-- An AND implies what one of its members implies, if this is no AND. -/
theorem and_entails_iff (hs : s.Valid v) (ha : s.ValidNode v a) (hb : s.ValidNode v b)
    (hk : a.connective? = some .and) (hl : s.list? a.number = some l)
    (plain : b.isConstant = false) (last : b.isAnd = false) :
    s.entails a b = true ↔ ∃ m ∈ l, s.entails m b = true := by
  obtain ⟨a_all, a_none⟩ := Node.ne_constant_of_connective? hk
  obtain ⟨b_all, b_none⟩ : b ≠ .all ∧ b ≠ .none := by
    rwa [Bool.eq_false_iff, Ne, Node.isConstant_iff, not_or] at plain
  have ne : a ≠ b := by
    rintro rfl
    simp [Node.isAnd, hk] at last
  have a_or : a.isOr = false := by simp [Node.isOr, hk]
  rw [entails_eq hs ha hb]
  simp [ne, a_all, a_none, b_all, b_none, last, a_or, Node.isAnd_iff.2 hk, hl]

/-- An AND is implied if all its members are. -/
theorem entails_and_iff (hs : s.Valid v) (ha : s.ValidNode v a) (hb : s.ValidNode v b)
    (hk : b.connective? = some .and) (hl : s.list? b.number = some l') :
    s.entails a b = true ↔ ∀ m ∈ l', s.entails a m = true := by
  obtain ⟨l₀, hl₀, hc⟩ := hb.list? hk
  cases hl.symm.trans hl₀
  have valid := hs.members _ _ hl
  obtain ⟨b_all, b_none⟩ := Node.ne_constant_of_connective? hk
  by_cases same : a = b
  · subst same
    refine iff_of_true (entails_self hs ha) fun m hm => ?_
    have last : m.isAnd = false := by
      rw [Bool.eq_false_iff]
      exact fun isAnd => hc.lifted m hm (Node.isAnd_iff.1 isAnd)
    rw [and_entails_iff hs ha (valid m hm) hk hl (hc.not_isConstant hm) last]
    exact ⟨m, hm, entails_self hs (valid m hm)⟩
  by_cases none : a = .none
  · subst none
    exact iff_of_true (none_entails hs hb) fun m hm => none_entails hs (valid m hm)
  by_cases all : a = .all
  · subst all
    obtain ⟨m, hm⟩ : ∃ m, m ∈ l' := List.exists_mem_of_length_pos (by have := hc.two_le; omega)
    refine iff_of_false (fun h => b_all (eq_all_of_all_entails hs hb h)) fun each => ?_
    have constant := hc.not_isConstant hm
    rw [eq_all_of_all_entails hs (valid m hm) (each m hm)] at constant
    cases constant
  rw [entails_eq hs ha hb]
  simp [same, none, all, b_all, b_none, Node.isAnd_iff.2 hk, hl]

/-- A leaf implies an OR if it implies one of its members. -/
theorem entails_or_iff (hs : s.Valid v) (ha : s.ValidNode v a) (hb : s.ValidNode v b)
    (leaf : a.isLeaf = true) (hk : b.connective? = some .or) (hl : s.list? b.number = some l') :
    s.entails a b = true ↔ ∃ m ∈ l', s.entails a m = true := by
  obtain ⟨a_all, a_none⟩ := Node.ne_constant_of_isLeaf leaf
  obtain ⟨b_all, b_none⟩ := Node.ne_constant_of_connective? hk
  obtain ⟨a_and, a_or⟩ := isAnd_eq_false_of_isLeaf leaf
  have ne : a ≠ b := by
    rintro rfl
    simp [Node.isOr, hk] at a_or
  have b_and : b.isAnd = false := by simp [Node.isAnd, hk]
  rw [entails_eq hs ha hb]
  simp [ne, a_all, a_none, b_all, b_none, a_and, a_or, b_and, Node.isOr_iff.2 hk, hl]

theorem leaf_entails_iff (leaf : a.isLeaf = true) (leaf' : b.isLeaf = true) :
    s.entails a b = true ↔ a = b ∨ b.isKnown = true ∧ a.requires b.argument = true := by
  rw [entails, implies_leaf leaf leaf']
  simp [Except.toOption]

/-! ## Transitivity -/

/-- A known check implies no other one. -/
theorem entails_trans_leaf (ha : v.Encodes a) (hb : v.Encodes b) (hc : v.Encodes c)
    (first : s.entails a b = true) (second : s.entails b c = true) : s.entails a c = true := by
  rw [leaf_entails_iff ha.isLeaf hb.isLeaf] at first
  rw [leaf_entails_iff hb.isLeaf hc.isLeaf] at second
  rcases first with rfl | ⟨known, requires⟩
  · rwa [leaf_entails_iff hb.isLeaf hc.isLeaf]
  rcases second with rfl | ⟨known', requires'⟩
  · exact (leaf_entails_iff ha.isLeaf hb.isLeaf).2 (.inr ⟨known, requires⟩)
  obtain rfl := hb.eq_of_known hc known known' requires'
  exact (leaf_entails_iff ha.isLeaf hb.isLeaf).2 (.inr ⟨known, requires⟩)

theorem entails_trans_of_constant (hs : s.Valid v) (ha : s.ValidNode v a) (hb : s.ValidNode v b)
    (hc : s.ValidNode v c) (constant : a.isConstant || b.isConstant || c.isConstant)
    (first : s.entails a b = true) (second : s.entails b c = true) : s.entails a c = true := by
  simp only [Bool.or_eq_true, Node.isConstant_iff] at constant
  rcases constant with ((rfl | rfl) | (rfl | rfl)) | (rfl | rfl)
  · obtain rfl := eq_all_of_all_entails hs hb first
    exact second
  · exact none_entails hs hc
  · obtain rfl := eq_all_of_all_entails hs hc second
    exact first
  · obtain rfl := eq_none_of_entails_none hs ha first
    exact second
  · exact entails_all hs ha
  · obtain rfl := eq_none_of_entails_none hs hb second
    exact first

/-- A node that is no constant and no AND is a leaf or an OR. -/
theorem ValidNode.encodes_or_isOr (hn : s.ValidNode v a) (plain : a.isConstant = false)
    (last : a.isAnd = false) : v.Encodes a ∨ a.connective? = some .or := by
  cases hn with
  | constant constant =>
    rw [constant] at plain
    cases plain
  | leaf code => exact .inl code
  | @combined k _ hk _ _ =>
    cases k with
    | or => exact .inr hk
    | and => simp [Node.isAnd, hk] at last

theorem entails_trans (hs : s.Valid v) (ha : s.ValidNode v a) (hb : s.ValidNode v b)
    (hc : s.ValidNode v c) (first : s.entails a b = true) (second : s.entails b c = true) :
    s.entails a c = true := by
  induction bound : a.level + b.level + c.level using Nat.strongRecOn generalizing a b c with
  | _ n ih =>
  subst bound
  -- Wherever a node is opened, there are three nodes left that are lower together.
  have lower : ∀ {n : Node} {k : Connective} {l : List Node}, n.connective? = some k →
      s.list? n.number = some l → ∀ m ∈ l, s.ValidNode v m ∧ m.level < n.level :=
    fun hk hl m hm => ⟨hs.members _ _ hl m hm, level_lt_of_mem hs.layered hk hl hm⟩
  by_cases constant : a.isConstant || b.isConstant || c.isConstant
  · exact entails_trans_of_constant hs ha hb hc constant first second
  simp only [Bool.or_eq_true, not_or, Bool.not_eq_true] at constant
  obtain ⟨⟨a_plain, b_plain⟩, c_plain⟩ := constant
  cases c_and : c.isAnd with
  | true =>
    have and := Node.isAnd_iff.1 c_and
    obtain ⟨l, hl, -⟩ := hc.list? and
    rw [entails_and_iff hs hb hc and hl] at second
    rw [entails_and_iff hs ha hc and hl]
    intro m hm
    obtain ⟨valid, lt⟩ := lower and hl m hm
    exact ih _ (by omega) ha hb valid first (second m hm) rfl
  | false =>
  cases b_and : b.isAnd with
  | true =>
    have and := Node.isAnd_iff.1 b_and
    obtain ⟨l, hl, -⟩ := hb.list? and
    obtain ⟨m, hm, second⟩ := (and_entails_iff hs hb hc and hl c_plain c_and).1 second
    have first := (entails_and_iff hs ha hb and hl).1 first m hm
    obtain ⟨valid, lt⟩ := lower and hl m hm
    exact ih _ (by omega) ha valid hc first second rfl
  | false =>
  rcases eq_or_ne a c with rfl | ac
  · exact entails_self hs ha
  rcases eq_or_ne a b with rfl | ab
  · exact second
  rcases eq_or_ne b c with rfl | bc
  · exact first
  cases a_and : a.isAnd with
  | true =>
    have and := Node.isAnd_iff.1 a_and
    obtain ⟨l, hl, -⟩ := ha.list? and
    obtain ⟨m, hm, first⟩ := (and_entails_iff hs ha hb and hl b_plain b_and).1 first
    obtain ⟨valid, lt⟩ := lower and hl m hm
    rw [and_entails_iff hs ha hc and hl c_plain c_and]
    exact ⟨m, hm, ih _ (by omega) valid hb hc first second rfl⟩
  | false =>
  rcases ha.encodes_or_isOr a_plain a_and with a_code | or
  case inr =>
    obtain ⟨l, hl, -⟩ := ha.list? or
    rw [or_entails_iff hs ha hb or hl ab b_plain b_and] at first
    rw [or_entails_iff hs ha hc or hl ac c_plain c_and]
    intro m hm
    obtain ⟨valid, lt⟩ := lower or hl m hm
    exact ih _ (by omega) valid hb hc (first m hm) second rfl
  rcases hb.encodes_or_isOr b_plain b_and with b_code | or
  case inr =>
    obtain ⟨l, hl, -⟩ := hb.list? or
    obtain ⟨m, hm, first⟩ := (entails_or_iff hs ha hb a_code.isLeaf or hl).1 first
    have second := (or_entails_iff hs hb hc or hl bc c_plain c_and).1 second m hm
    obtain ⟨valid, lt⟩ := lower or hl m hm
    exact ih _ (by omega) ha valid hc first second rfl
  rcases hc.encodes_or_isOr c_plain c_and with c_code | or
  case inr =>
    obtain ⟨l, hl, -⟩ := hc.list? or
    obtain ⟨m, hm, second⟩ := (entails_or_iff hs hb hc b_code.isLeaf or hl).1 second
    obtain ⟨valid, lt⟩ := lower or hl m hm
    rw [entails_or_iff hs ha hc a_code.isLeaf or hl]
    exact ⟨m, hm, ih _ (by omega) ha hb valid first second rfl⟩
  exact entails_trans_leaf a_code b_code c_code first second

end Store

/-- **Seen implication is a preorder** on the usable nodes, any two of which can be compared. -/
theorem Session.Reached.implication_preorder {x : Session} (h : x.Reached) :
    (∀ a, x.Usable a → x.forest.store.implies a a = .ok true) ∧
    (∀ a b, x.Usable a → x.Usable b → ∃ answer, x.forest.store.implies a b = .ok answer) ∧
    ∀ a b c, x.Usable a → x.Usable b → x.Usable c → x.forest.store.implies a b = .ok true →
      x.forest.store.implies b c = .ok true → x.forest.store.implies a c = .ok true := by
  have hs := h.sound.forest.store
  have valid : ∀ {n}, x.Usable n → x.forest.ValidNode n := h.sound.validNode
  have seen : ∀ {a b}, x.Usable a → x.Usable b →
      (x.forest.store.implies a b = .ok true ↔ x.forest.store.entails a b = true) := by
    intro a b ha hb
    rw [Store.implies_eq_ok hs (valid ha) (valid hb), Except.ok.injEq]
  refine ⟨fun a ha => ?_, fun a b ha hb => ?_, fun a b c ha hb hc first second => ?_⟩
  · exact (seen ha ha).2 (Store.entails_self hs (valid ha))
  · exact Store.exists_implies_eq_ok hs (valid ha) (valid hb)
  · rw [seen ha hb] at first
    rw [seen hb hc] at second
    rw [seen ha hc]
    exact Store.entails_trans hs (valid ha) (valid hb) (valid hc) first second

namespace Sample

/-- `a = x AND (a = x OR a IS NOT UNKNOWN)` is seen to imply `a = x`, which is seen to imply
`a IS NOT UNKNOWN`. -/
theorem nested_implies : deep.forest.store.implies nested equal = .ok true ∧
    deep.forest.store.implies equal known = .ok true ∧
    deep.forest.store.implies nested known = .ok true := by
  have equal_usable : deep.Usable equal := .leaf (Vocabulary.encodes_iff.2 ⟨_, codes_equal⟩)
  have known_usable : deep.Usable known := .leaf (Vocabulary.encodes_iff.2 ⟨_, codes_known⟩)
  have first : deep.forest.store.implies nested equal = .ok true := rfl
  have second : deep.forest.store.implies equal known = .ok true := rfl
  obtain ⟨-, -, transitive⟩ := reached_deep.implication_preorder
  exact ⟨first, second,
    transitive _ _ _ usable_deep.2.1 equal_usable known_usable first second⟩

end Sample

end Criteria
