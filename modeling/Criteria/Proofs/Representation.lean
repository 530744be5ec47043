import Criteria.Proofs.Deciding

/-!
# The lists behind combined nodes

**Theorem (`Session.Reached.tidy_list`).** In a session in which only usable nodes were handed in, every
combined node that was returned last, is a root or is a member of a list has a list that is there
and *tidy*: ascending and without repetition, of two members at least, none of them a constant,
invalid, or of the same connective, each combined one with a list that came before, and without
members that decide the whole.

The two connectives ask different things of a list that serves both, so being tidy is a matter of
the node. All of it follows from what consolidation leaves (`Consolidated`) and from lists holding
only what came before them.
-/

namespace Criteria

variable {v : Vocabulary} {k : Connective} {l : List Node} {n : Node}

/-! ## Lists that decide nothing -/

namespace Consolidated

/-- The leaves of an AND can hold together, as far as two of them tell. -/
theorem conflicts_eq_false (h : Consolidated .and l) {a b : Node} (ha : a ∈ l) (hb : b ∈ l)
    (leaf : a.isLeaf = true) (leaf' : b.isLeaf = true) : a.conflicts b = false := by
  rw [Bool.eq_false_iff]
  intro conflict
  have undecided : hasContradiction l = false := h.undecided
  rw [(hasContradiction_iff h.ascending).2 ⟨a, ha, b, hb, leaf, leaf', conflict⟩] at undecided
  cases undecided

/-- An OR does not ask whether an argument is known or not. -/
theorem argument_ne (h : Consolidated .or l) (codes : ∀ m ∈ l, m.isLeaf = true → v.Encodes m)
    {a b : Node} (ha : a ∈ l) (hb : b ∈ l) (unknown : a.isUnknown = true)
    (known : b.isKnown = true) : a.argument ≠ b.argument := by
  intro eq
  have check := Node.isUnknownCheck_of_isUnknown unknown
  have check' := Node.isUnknownCheck_of_isKnown known
  have flip := (codes a ha (Node.isLeaf_of_isUnknownCheck check)).eq_flip_of_known
    (codes b hb (Node.isLeaf_of_isUnknownCheck check')) unknown known eq
  have undecided : hasTautology l = false := h.undecided
  rw [(hasTautology_iff h.ascending).2 ⟨a, ha, check, flip ▸ hb⟩] at undecided
  cases undecided

end Consolidated

/-! ## Tidy lists -/

namespace Store

variable {s : Store}

/-- The list of a combined node with connective `k`. -/
structure Tidy (s : Store) (k : Connective) (n : Node) (l : List Node) : Prop where
  ascending : l.Pairwise (· < ·)
  two_le : 2 ≤ l.length
  all_not_mem : .all ∉ l
  none_not_mem : .none ∉ l
  invalid_not_mem : .invalid ∉ l
  lifted : ∀ m ∈ l, m.connective? ≠ some k
  below : ∀ m ∈ l, m.isCombined = true → m.number < n.number ∧ ∃ l', s.list? m.number = some l'
  /-- No two leaves of an AND contradict each other. -/
  and_conflicts : k = .and → ∀ a ∈ l, ∀ b ∈ l, a.isLeaf = true → b.isLeaf = true →
    a.conflicts b = false
  /-- No two leaves of an OR ask whether an argument is unknown and whether it is known. -/
  or_argument : k = .or → ∀ a ∈ l, ∀ b ∈ l, a.isUnknown = true → b.isKnown = true →
    a.argument ≠ b.argument

theorem Valid.tidy (hs : s.Valid v) (hn : s.ValidNode v n) (hk : n.connective? = some k) :
    ∃ l, s.list? n.number = some l ∧ s.Tidy k n l := by
  obtain ⟨l, hl, hc⟩ := hn.list? hk
  have members := hs.members _ _ hl
  have plain : ∀ m, m.isLeaf = false → m.isCombined = false → m ∉ l := by
    intro m leaf comb hm
    rcases hc.plain m hm with h | h
    · exact Bool.false_ne_true (leaf.symm.trans h)
    · exact Bool.false_ne_true (comb.symm.trans h)
  refine ⟨l, hl, ?_⟩
  constructor
  case ascending => exact hc.ascending
  case two_le => exact hc.two_le
  case all_not_mem => exact plain .all (by decide) (by decide)
  case none_not_mem => exact plain .none (by decide) (by decide)
  case invalid_not_mem => exact plain .invalid (by decide) (by decide)
  case lifted => exact hc.lifted
  case below =>
    intro m hm comb
    obtain ⟨k', hk'⟩ := Node.exists_connective? comb
    obtain ⟨l', hl', -⟩ := (members m hm).list? hk'
    have level := hs.layered _ _ hl m hm
    rw [Node.level, if_pos comb] at level
    exact ⟨level, l', hl'⟩
  case and_conflicts =>
    rintro rfl a ha b hb leaf leaf'
    exact hc.conflicts_eq_false ha hb leaf leaf'
  case or_argument =>
    rintro rfl a ha b hb unknown known
    exact hc.argument_ne (fun m hm => (members m hm).encodes_of_isLeaf) ha hb unknown known

end Store

namespace Session

variable {x : Session}

/-- A node that was returned last, is a root or is a member of a list, and is combined, has a list
that is tidy. -/
theorem Reached.tidy_list (h : x.Reached) (comb : n.isCombined = true)
    (hn : n ∈ x.last ∨ x.forest.Contains n) :
    ∃ k l, n.connective? = some k ∧ x.forest.store.list? n.number = some l ∧
      x.forest.store.Tidy k n l := by
  obtain ⟨k, hk⟩ := Node.exists_connective? comb
  have sound := h.sound
  have valid : x.forest.ValidNode n := by
    rcases hn with last | root | ⟨id, l, hl, hm⟩
    · exact sound.last n last
    · exact sound.forest.roots n root
    · exact sound.forest.store.members id l hl n hm
  obtain ⟨l, hl, tidy⟩ := sound.forest.store.tidy valid hk
  exact ⟨k, l, hk, hl, tidy⟩

end Session

theorem Sample.tidy_both : both.isCombined = true ∧ session.forest.Contains both ∧
    ∃ k l, both.connective? = some k ∧ session.forest.store.list? both.number = some l ∧
      session.forest.store.Tidy k both l := by
  have comb : both.isCombined = true := by decide
  have contained : session.forest.Contains both := .inl (List.mem_singleton_self _)
  exact ⟨comb, contained, reached.tidy_list comb (.inr contained)⟩

end Criteria
