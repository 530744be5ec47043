import Mathlib.Data.Finset.Union
import Mathlib.Logic.Equiv.Finset
import Mathlib.Tactic.DeriveEncodable
import Criteria.Rewording

/-!
# Shapes

What is left of a condition when it does not matter in which order members come, how often each of
them comes, and how they are grouped: a constant, a leaf, or a connective with a finite *set* of
shapes. Leaves are meant by name and not by code, so shapes can be compared across vocabularies.

Sets of shapes have to be shapes again, which no inductive type allows. Finite sets of numbers can
be numbered, and so a shape is a number (`Shape.of`).

**Theorem (`Expression.Reworded.shape_eq`).** Expressions that say the same in other words have the
same shape.

Joining shapes (`Shape.join`) does with sets what consolidation does with lists: it lifts members
with the same connective, drops the neutral constant, and closes what is left (`Shape.close`). All
that counts of the members is what is left of them, so a set that was closed under the same
connective before may be closed again together with others (`close_union`); that is grouping.
-/

namespace Criteria

/-! ## Leaves that decide the whole -/

namespace Leaf

/-- Whether the leaf is `x IS UNKNOWN` for some argument. -/
def isUnknown (l : Leaf) : Bool := !l.negated && l.comparison.operator = .isUnknown

/-- Whether the leaf can only hold where an argument is known. -/
def requires (l : Leaf) (name : String) : Bool :=
  !l.isUnknown && l.comparison.arguments.contains name

end Leaf

/-- Whether two leaves decide the whole as members: in an AND they cannot hold together, in an OR
one of them holds for sure. -/
def Connective.decides (k : Connective) (l l' : Leaf) : Bool :=
  match k with
  | .and => l' = l.strictNot || l.isUnknown && l'.requires l.comparison.argument
  | .or => l.isUnknown && l' = l.strictNot

theorem Connective.decides_self (k : Connective) (l : Leaf) : k.decides l l = false := by
  have ne : l ≠ l.strictNot := by
    obtain ⟨neg, c⟩ := l
    cases neg <;> simp [Leaf.strictNot]
  cases k with
  | and =>
    rw [decides, decide_eq_false ne, Leaf.requires]
    cases l.isUnknown <;> simp
  | or => rw [decides, decide_eq_false ne, Bool.and_false]

theorem Connective.absorbing_ne_neutral (k : Connective) : k.absorbing ≠ k.neutral := by
  cases k <;> decide

/-! ## Shapes -/

instance encodableChar : Encodable Char := .ofLeftInverse Char.toNat Char.ofNat Char.ofNat_toNat

instance encodableString : Encodable String :=
  .ofLeftInverse String.toList String.ofList fun _ => String.ofList_toList

deriving instance Encodable for Constant, Connective, Operator, Operand, Comparison, Leaf

/-- What a shape is made of, where sets of shapes are sets of numbers. -/
inductive Shape.Parts where
  | constant (c : Constant)
  | leaf (l : Leaf)
  | group (k : Connective) (members : Finset Nat)
  deriving Encodable

/-- A condition up to order, repetition and grouping of members, as a number. -/
abbrev Shape : Type := Nat

namespace Shape

variable {k : Connective} {c : Constant} {x y : Shape} {R S T : Finset Shape}

/-- The shape that is made of some parts. -/
def of (p : Parts) : Shape := Encodable.encode p

@[simp] theorem of_inj {p q : Parts} : of p = of q ↔ p = q := Encodable.encode_inj

/-! ## Lifting -/

open Classical in
/-- What a member adds to the members under a connective: its own members if it has the same
connective, else itself. -/
noncomputable def lift (k : Connective) (x : Shape) : Finset Shape :=
  if h : ∃ S, x = of (.group k S) then h.choose else {x}

@[simp] theorem lift_group : lift k (of (.group k S)) = S := by
  have same : ∃ T, of (.group k S) = of (.group k T) := ⟨S, rfl⟩
  rw [lift, dif_pos same]
  have eq := same.choose_spec
  rw [of_inj, Parts.group.injEq] at eq
  exact eq.2.symm

theorem lift_of_ne (h : ∀ S, x ≠ of (.group k S)) : lift k x = {x} :=
  dif_neg (not_exists.2 h)

@[simp] theorem lift_constant : lift k (of (.constant c)) = {of (.constant c)} :=
  lift_of_ne (by simp)

/-! ## Closing -/

/-- Whether members decide the whole under a connective. -/
def Decided (k : Connective) (S : Finset Shape) : Prop :=
  of (.constant k.absorbing) ∈ S ∨
    ∃ l l', of (.leaf l) ∈ S ∧ of (.leaf l') ∈ S ∧ k.decides l l' = true

theorem Decided.mono (h : Decided k S) (sub : S ⊆ T) : Decided k T := by
  rcases h with mem | ⟨l, l', hl, hl', decides⟩
  · exact .inl (sub mem)
  · exact .inr ⟨l, l', sub hl, sub hl', decides⟩

open Classical in
/-- The shape of members that are lifted and without the neutral constant. -/
noncomputable def close (k : Connective) (R : Finset Shape) : Shape :=
  if Decided k R then of (.constant k.absorbing)
  else if R = ∅ then of (.constant k.neutral)
  else if h : ∃ x, R = {x} then h.choose
  else of (.group k R)

theorem close_of_decided (h : Decided k R) : close k R = of (.constant k.absorbing) := if_pos h

theorem not_decided_empty : ¬ Decided k ∅ := by
  rintro (mem | ⟨l, l', mem, -⟩)
  · exact absurd mem (Finset.notMem_empty _)
  · exact absurd mem (Finset.notMem_empty _)

@[simp] theorem close_empty : close k ∅ = of (.constant k.neutral) := by
  rw [close, if_neg not_decided_empty, if_pos rfl]

theorem close_singleton (h : x ≠ of (.constant k.absorbing)) : close k {x} = x := by
  have undecided : ¬ Decided k {x} := by
    rintro (mem | ⟨l, l', hl, hl', decides⟩)
    · exact h (Finset.mem_singleton.1 mem).symm
    · have same : of (.leaf l) = of (.leaf l') :=
        (Finset.mem_singleton.1 hl).trans (Finset.mem_singleton.1 hl').symm
      obtain rfl : l = l' := by simpa using same
      rw [k.decides_self] at decides
      cases decides
  have single : ∃ y, ({x} : Finset Shape) = {y} := ⟨x, rfl⟩
  rw [close, if_neg undecided, if_neg (Finset.singleton_ne_empty x), dif_pos single]
  exact (Finset.singleton_injective single.choose_spec).symm

/-- Members that decide nothing and are at least two. -/
theorem close_of_two_le (undecided : ¬ Decided k R) (two : 2 ≤ R.card) :
    close k R = of (.group k R) := by
  have ne_empty : R ≠ ∅ := by
    rintro rfl
    simp at two
  have ne_single : ¬ ∃ x, R = {x} := by
    rintro ⟨x, rfl⟩
    simp at two
  rw [close, if_neg undecided, if_neg ne_empty, dif_neg ne_single]

theorem close_cases (k : Connective) (R : Finset Shape) :
    (Decided k R ∧ close k R = of (.constant k.absorbing)) ∨
    (¬ Decided k R ∧ R = ∅ ∧ close k R = of (.constant k.neutral)) ∨
    (¬ Decided k R ∧ ∃ x, R = {x} ∧ close k R = x) ∨
    (¬ Decided k R ∧ 2 ≤ R.card ∧ close k R = of (.group k R)) := by
  by_cases decided : Decided k R
  · exact .inl ⟨decided, close_of_decided decided⟩
  right
  match card : R.card with
  | 0 =>
    obtain rfl := Finset.card_eq_zero.1 card
    exact .inl ⟨decided, rfl, close_empty⟩
  | 1 =>
    obtain ⟨x, rfl⟩ := Finset.card_eq_one.1 card
    have ne : x ≠ of (.constant k.absorbing) := fun eq =>
      decided (.inl (Finset.mem_singleton.2 eq.symm))
    exact .inr (.inl ⟨decided, x, rfl, close_singleton ne⟩)
  | n + 2 =>
    have two : 2 ≤ R.card := by omega
    exact .inr (.inr ⟨decided, by omega, close_of_two_le decided two⟩)

/-- What is left of a shape as a member. -/
noncomputable def rest (k : Connective) (x : Shape) : Finset Shape :=
  (lift k x).erase (of (.constant k.neutral))

@[simp] theorem rest_neutral : rest k (of (.constant k.neutral)) = ∅ := by
  rw [rest, lift_constant, Finset.erase_singleton]

@[simp] theorem rest_absorbing :
    rest k (of (.constant k.absorbing)) = {of (.constant k.absorbing)} := by
  rw [rest, lift_constant, Finset.erase_eq_of_notMem]
  simp [k.absorbing_ne_neutral.symm]

/-- Members that a connective has nothing to lift or to drop from. -/
structure Flat (k : Connective) (R : Finset Shape) : Prop where
  lifted : ∀ x ∈ R, lift k x = {x}
  neutral : of (.constant k.neutral) ∉ R

/-- What is left of members that were closed is what they were, unless they decide the whole. -/
theorem rest_close (flat : Flat k R) (undecided : ¬ Decided k R) : rest k (close k R) = R := by
  rcases close_cases k R with ⟨decided, -⟩ | ⟨-, rfl, eq⟩ | ⟨-, x, rfl, eq⟩ | ⟨-, -, eq⟩
  · exact (undecided decided).elim
  · rw [eq, rest_neutral]
  · rw [eq, rest, flat.lifted x (Finset.mem_singleton_self x),
      Finset.erase_eq_of_notMem flat.neutral]
  · rw [eq, rest, lift_group, Finset.erase_eq_of_notMem flat.neutral]

/-- Members that were closed may be closed again together with others. -/
theorem close_union (flat : Flat k R) :
    close k (rest k (close k R) ∪ T) = close k (R ∪ T) := by
  by_cases decided : Decided k R
  · have left : Decided k (rest k (close k R) ∪ T) := by
      rw [close_of_decided decided, rest_absorbing]
      exact .inl (Finset.mem_union_left _ (Finset.mem_singleton_self _))
    rw [close_of_decided left, close_of_decided (decided.mono Finset.subset_union_left)]
  · rw [rest_close flat decided]

/-! ## Joining -/

/-- The shape of a connective with some members. -/
noncomputable def join (k : Connective) (S : Finset Shape) : Shape := close k (S.biUnion (rest k))

/-- A shape that joining gives: the members of a group are such that closing them gives the
group. -/
def Closed (x : Shape) : Prop :=
  ∀ k S, x = of (.group k S) → Flat k S ∧ ¬ Decided k S ∧ 2 ≤ S.card

theorem closed_constant : Closed (of (.constant c)) := fun k S eq => by simp at eq

theorem closed_leaf {l : Leaf} : Closed (of (.leaf l)) := fun k S eq => by simp at eq

/-- A closed member that is lifted has at least two members that nothing is lifted or dropped from,
and any other is left as it is. -/
theorem Closed.lift_cases (h : Closed x) (k : Connective) :
    lift k x = {x} ∨ Flat k (lift k x) ∧ 2 ≤ (lift k x).card := by
  by_cases group : ∃ S, x = of (.group k S)
  · obtain ⟨S, rfl⟩ := group
    obtain ⟨flat, -, two⟩ := h k S rfl
    rw [lift_group]
    exact .inr ⟨flat, two⟩
  · exact .inl (lift_of_ne (not_exists.1 group))

theorem Closed.flat_rest (h : Closed x) : Flat k (rest k x) := by
  rcases h.lift_cases k with single | ⟨flat, -⟩
  · refine ⟨fun y hy => ?_, Finset.notMem_erase _ _⟩
    rw [rest, single, Finset.mem_erase, Finset.mem_singleton] at hy
    rw [hy.2, single]
  · exact ⟨fun y hy => flat.lifted y (Finset.mem_of_mem_erase hy), Finset.notMem_erase _ _⟩

theorem flat_biUnion (h : ∀ x ∈ S, Closed x) : Flat k (S.biUnion (rest k)) where
  lifted y hy := by
    obtain ⟨x, hx, hy⟩ := Finset.mem_biUnion.1 hy
    exact (h x hx).flat_rest.lifted y hy
  neutral mem := by
    obtain ⟨x, hx, mem⟩ := Finset.mem_biUnion.1 mem
    exact (h x hx).flat_rest.neutral mem

/-- Joining closed shapes gives a closed shape. -/
theorem closed_join (h : ∀ x ∈ S, Closed x) : Closed (join k S) := by
  have flat := flat_biUnion (k := k) h
  rcases close_cases k (S.biUnion (rest k)) with
    ⟨-, eq⟩ | ⟨-, -, eq⟩ | ⟨-, y, single, eq⟩ | ⟨undecided, two, eq⟩
  · rw [join, eq]
    exact closed_constant
  · rw [join, eq]
    exact closed_constant
  · -- A group that is lifted leaves two members at least, so `y` was a member itself.
    rw [join, eq]
    have mem : y ∈ S.biUnion (rest k) := single ▸ Finset.mem_singleton_self y
    obtain ⟨x, hx, mem⟩ := Finset.mem_biUnion.1 mem
    rcases (h x hx).lift_cases k with same | ⟨flat', two⟩
    · rw [rest, same, Finset.mem_erase, Finset.mem_singleton] at mem
      exact mem.2 ▸ h x hx
    · have sub : lift k x ⊆ {y} := by
        rw [← single, ← Finset.erase_eq_of_notMem flat'.neutral]
        exact Finset.subset_biUnion_of_mem (rest k) hx
      have le := Finset.card_le_card sub
      rw [Finset.card_singleton] at le
      omega
  · intro k' T same
    rw [join, eq, of_inj, Parts.group.injEq] at same
    obtain ⟨rfl, rfl⟩ := same
    exact ⟨flat, undecided, two⟩

theorem join_insert : join k (insert x S) = close k (rest k x ∪ S.biUnion (rest k)) := by
  rw [join, Finset.biUnion_insert]

/-- The neutral constant makes no difference. -/
theorem join_insert_neutral : join k (insert (of (.constant k.neutral)) S) = join k S := by
  rw [join_insert, rest_neutral, Finset.empty_union]
  rfl

/-- Some members may be joined on their own. -/
theorem join_insert_join (h : ∀ x ∈ S, Closed x) :
    join k (insert (join k S) T) = join k (S ∪ T) := by
  rw [join_insert, join, close_union (flat_biUnion h), ← Finset.union_biUnion]
  rfl

/-- A closed shape that is joined alone is left as it is. -/
theorem join_singleton (h : Closed x) : join k {x} = x := by
  rw [join, Finset.singleton_biUnion]
  by_cases group : ∃ S, x = of (.group k S)
  · obtain ⟨S, rfl⟩ := group
    obtain ⟨flat, undecided, two⟩ := h k S rfl
    rw [rest, lift_group, Finset.erase_eq_of_notMem flat.neutral, close_of_two_le undecided two]
  · have single := lift_of_ne (not_exists.1 group)
    by_cases neutral : x = of (.constant k.neutral)
    · rw [neutral, rest_neutral, close_empty]
    by_cases absorbing : x = of (.constant k.absorbing)
    · rw [absorbing, rest_absorbing]
      exact close_of_decided (.inl (Finset.mem_singleton_self _))
    · have kept : rest k x = {x} := by
        rw [rest, single, Finset.erase_eq_of_notMem]
        exact fun mem => neutral (Finset.mem_singleton.1 mem).symm
      rw [kept, close_singleton absorbing]

end Shape

/-! ## Shapes of expressions -/

namespace Expression

variable {e e' : Expression} {es es' : List Expression}

mutual
/-- The shape of an expression. -/
noncomputable def shape : Expression → Shape
  | constant c => .of (.constant c)
  | leaf l => .of (.leaf l)
  | combined k es => .join k (shapes es)

/-- The shapes of some expressions. -/
noncomputable def shapes : List Expression → Finset Shape
  | [] => ∅
  | e :: es => insert (shape e) (shapes es)
end

theorem shapes_eq (es : List Expression) : shapes es = (es.map shape).toFinset := by
  induction es with
  | nil => rfl
  | cons e es ih => rw [shapes, ih, List.map_cons, List.toFinset_cons]

mutual

theorem closed_shape (e : Expression) : e.shape.Closed := by
  match e with
  | constant c =>
    rw [shape]
    exact Shape.closed_constant
  | leaf l =>
    rw [shape]
    exact Shape.closed_leaf
  | combined k es =>
    rw [shape]
    exact Shape.closed_join (closed_of_mem_shapes es)

theorem closed_of_mem_shapes (es : List Expression) : ∀ x ∈ shapes es, x.Closed := by
  match es with
  | [] => simp [shapes]
  | e :: es =>
    rw [shapes, Finset.forall_mem_insert]
    exact ⟨closed_shape e, closed_of_mem_shapes es⟩

end

/-- A change of the words leaves the shape as it is. -/
theorem Reword.shape_eq (h : Reword e e') : e.shape = e'.shape := by
  cases h with
  | perm perm =>
    rw [shape, shape, shapes_eq, shapes_eq, List.toFinset_eq_of_perm _ _ (perm.map shape)]
  | @duplicate k e es mem =>
    have known : e.shape ∈ shapes es := by
      rw [shapes_eq, List.mem_toFinset]
      exact List.mem_map_of_mem mem
    rw [shape, shape, shapes, Finset.insert_eq_of_mem known]
  | @group k inner outer =>
    rw [shape, shape, shapes, shape, Shape.join_insert_join (closed_of_mem_shapes inner)]
    rw [shapes_eq, shapes_eq, shapes_eq, List.map_append, List.toFinset_append]
  | wrap =>
    rw [shape, shapes, shapes, insert_empty_eq, Shape.join_singleton (closed_shape e)]
  | @neutral k es =>
    rw [shape, shape, shapes, shape, Shape.join_insert_neutral]

theorem Somewhere.shape_eq {change : Expression → Expression → Prop}
    (keeps : ∀ {e e'}, change e e' → e.shape = e'.shape) (h : Somewhere change e e') :
    e.shape = e'.shape := by
  induction h with
  | here step => exact keeps step
  | member _ ih => simp only [shape, shapes_eq, List.map_append, List.map_cons, ih]

/-- Expressions that say the same in other words have the same shape. -/
theorem Reworded.shape_eq (h : Reworded e e') : e.shape = e'.shape := by
  induction h with
  | rel e e' step => exact step.shape_eq Reword.shape_eq
  | refl e => rfl
  | symm e e' _ ih => exact ih.symm
  | trans e e' e'' _ _ first second => exact first.trans second

end Expression

end Criteria
