import Criteria.Forest
import Criteria.Record

/-!
# The meaning of nodes

What a node means in a store: a leaf what it is said to mean, a combined node what its connective
makes of its members. In a *layered* store every list holds only nodes that came before it, so the
number of a node bounds how deep its members nest and `Store.holds` reaches all of them.

**Theorems.** In a layered store a combined node means the conjunction (`holds_and`) or disjunction
(`holds_or`) of its members, and looking deeper than the level of a node tells nothing new
(`holdsWithin_eq_holds`).
-/

namespace Criteria

/-- A bound on how deep the members of a node nest, if lists hold only nodes that came before. -/
def Node.level (n : Node) : Nat := if n.isCombined then n.number + 1 else 0

namespace Store

/-- Whether a node holds, given which leaves do, for a node that nests less deep than `fuel`. -/
def holdsWithin (s : Store) (leaf : Node → Bool) : Nat → Node → Bool
  | 0, _ => false
  | fuel + 1, n =>
    if n = .all then true
    else if n = .none then false
    else match n.connective? with
    | none => leaf n
    | some .and => (s.list? n.number).any (·.all (s.holdsWithin leaf fuel))
    | some .or => (s.list? n.number).any (·.any (s.holdsWithin leaf fuel))

/-- Whether a node holds, given which leaves do. -/
def holds (s : Store) (leaf : Node → Bool) (n : Node) : Bool := s.holdsWithin leaf (n.level + 1) n

/-- Every list holds only constants, leaves and nodes over lists that came before it. -/
def Layered (s : Store) : Prop := ∀ id l, s.list? id = some l → ∀ m ∈ l, m.level ≤ id

theorem layered_empty (threshold : Nat) : (empty threshold).Layered := by
  intro id l h
  simp at h

variable {s : Store} {leaf : Node → Bool}

theorem level_lt_of_mem (lay : s.Layered) {n : Node} {k : Connective} {l : List Node} {m : Node}
    (hn : n.connective? = some k) (hl : s.list? n.number = some l) (hm : m ∈ l) :
    m.level < n.level := by
  have := lay _ _ hl m hm
  rw [Node.level, Node.level, Node.isCombined_of_connective? hn] at *
  simp only [if_true]
  omega

/-- Looking deeper than the level of a node tells nothing new. -/
theorem holdsWithin_eq (lay : s.Layered) {a b : Nat} {n : Node} (ha : n.level < a)
    (hb : n.level < b) : s.holdsWithin leaf a n = s.holdsWithin leaf b n := by
  induction a generalizing b n with
  | zero => omega
  | succ a ih =>
    cases b with
    | zero => omega
    | succ b =>
      have members : ∀ k, n.connective? = some k → ∀ l, s.list? n.number = some l → ∀ m ∈ l,
          s.holdsWithin leaf a m = s.holdsWithin leaf b m := fun k hk l hl m hm => by
        have := level_lt_of_mem lay hk hl hm
        exact ih (by omega) (by omega)
      rw [holdsWithin, holdsWithin]
      split
      · rfl
      · split
        · rfl
        · split
          · rfl
          · next hk =>
            cases hl : s.list? n.number with
            | none => rfl
            | some l =>
              rw [Option.any_some, Option.any_some, Bool.eq_iff_iff, List.all_eq_true,
                List.all_eq_true]
              exact ⟨fun h m hm => members _ hk l hl m hm ▸ h m hm,
                fun h m hm => (members _ hk l hl m hm).symm ▸ h m hm⟩
          · next hk =>
            cases hl : s.list? n.number with
            | none => rfl
            | some l =>
              rw [Option.any_some, Option.any_some, Bool.eq_iff_iff, List.any_eq_true,
                List.any_eq_true]
              exact ⟨fun ⟨m, hm, h⟩ => ⟨m, hm, members _ hk l hl m hm ▸ h⟩,
                fun ⟨m, hm, h⟩ => ⟨m, hm, (members _ hk l hl m hm).symm ▸ h⟩⟩

theorem holdsWithin_eq_holds (lay : s.Layered) {fuel : Nat} {n : Node} (h : n.level < fuel) :
    s.holdsWithin leaf fuel n = s.holds leaf n :=
  holdsWithin_eq lay h (Nat.lt_succ_self _)

theorem holds_all : s.holds leaf .all = true := by
  simp [holds, holdsWithin]

theorem holds_none : s.holds leaf .none = false := by
  simp [holds, holdsWithin, Node.none, Node.all]

theorem ne_constant_of_connective? {n : Node} {k : Connective} (h : n.connective? = some k) :
    n ≠ .all ∧ n ≠ .none := by
  constructor <;> rintro rfl <;> exact absurd h (by decide +revert)

/-- An AND holds if all its members do. -/
theorem holds_and (lay : s.Layered) {n : Node} {l : List Node} (hn : n.connective? = some .and)
    (hl : s.list? n.number = some l) : s.holds leaf n = l.all (s.holds leaf) := by
  obtain ⟨h1, h2⟩ := ne_constant_of_connective? hn
  rw [holds, holdsWithin, if_neg h1, if_neg h2, hn]
  simp only [hl, Option.any_some]
  rw [Bool.eq_iff_iff, List.all_eq_true, List.all_eq_true]
  exact forall₂_congr fun m hm => by
    rw [holdsWithin_eq_holds lay (level_lt_of_mem lay hn hl hm)]

/-- An OR holds if one of its members does. -/
theorem holds_or (lay : s.Layered) {n : Node} {l : List Node} (hn : n.connective? = some .or)
    (hl : s.list? n.number = some l) : s.holds leaf n = l.any (s.holds leaf) := by
  obtain ⟨h1, h2⟩ := ne_constant_of_connective? hn
  rw [holds, holdsWithin, if_neg h1, if_neg h2, hn]
  simp only [hl, Option.any_some]
  rw [Bool.eq_iff_iff, List.any_eq_true, List.any_eq_true]
  refine exists_congr fun m => ?_
  constructor
  · rintro ⟨hm, h⟩
    exact ⟨hm, holdsWithin_eq_holds lay (level_lt_of_mem lay hn hl hm) ▸ h⟩
  · rintro ⟨hm, h⟩
    exact ⟨hm, (holdsWithin_eq_holds lay (level_lt_of_mem lay hn hl hm)).symm ▸ h⟩

end Store

/-! ## Under a vocabulary -/

/-- Whether a record meets the leaf of a node. -/
def Vocabulary.holds (v : Vocabulary) (r : Record) (n : Node) : Bool :=
  match v.decodeLeaf n with
  | .ok l => l.holds r
  | .error _ => false

/-- Whether a record meets a node. -/
def Forest.holds (f : Forest) (r : Record) (n : Node) : Bool :=
  f.store.holds (f.vocabulary.holds r) n

end Criteria
